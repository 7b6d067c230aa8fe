import RevisionLedger.Proofs.Store.Persistence

/-!
# Snapshots are read back, and tell records apart

The snapshot of a record passes all the checks of a reader, and what is read is the record with each
of its doubles as the reader makes it of its text (`Record.Storable.decode_snapshot`). Two records
have one canonical text only if they are the same, since that text is read as one record, which is
the same as each of the two (`Record.Storable.json_canonical_inj`).
-/

namespace RevisionLedger

open Json (canonical)

namespace Record

/-- The doubles of the record are finite, and the reader takes their texts. -/
def Rereads (record : Record) : Prop := ∀ x ∈ record.reals, canonical.Rereads x

namespace Storable

variable {record other : Record}

/-- The snapshot passes every check. -/
theorem decode_snapshot (h : record.Storable) (hash : String) :
    Snapshot.decode record.snapshot.json Snapshot.digestLabel record.snapshot.digest hash =
      .ok record.stored :=
  Row.decode_snapshot_eq_ok_iff.2 ⟨h.size, rfl, rfl, h.decode_json⟩

/-- Records have one canonical text exactly if they are the same. -/
theorem json_canonical_inj (h : record.Storable) (hother : other.Storable) :
    record.snapshot.json = other.snapshot.json ↔ record.Same other := by
  constructor
  · intro hjson
    -- The one text is read twice, as each of the two records.
    have hread := h.decode_json
    rw [hjson, hother.decode_json] at hread
    have hstored : other.stored = record.stored := Except.ok.inj hread
    refine same_of_unsignZeros_eq ?_ fun x hx => (h.reals x hx).1
    rw [← h.unsignZeros_stored, ← hstored, hother.unsignZeros_stored]
  · intro hsame
    rw [snapshot, snapshot, json_canonical_congr (unsignZeros_eq_of_same hsame)]

end Storable

end Record

namespace Snapshot

/-- A record that fits into a row, and whose doubles can be read, has a snapshot. It is decoded as
the record, but that each double is what the reader makes of its text. The snapshots of two such
records have one text, and are one, exactly if the records are numerically equal. -/
theorem codec {record : Record} (hfits : record.Fits) (hreads : record.Rereads) :
    ∃ snapshot, encode record = .ok snapshot ∧
      (∀ hash, decode snapshot.json "sha256" snapshot.digest hash =
        .ok (record.mapReals canonical.reread)) ∧
      ∀ other : Record, other.Fits → other.Rereads →
        ∃ snapshot', encode other = .ok snapshot' ∧
          (snapshot.json = snapshot'.json ↔ record.Same other) ∧
          (snapshot = snapshot' ↔ record.Same other) := by
  have h : record.Storable := hfits.storable fun x hx => (hreads x hx).1
  refine ⟨record.snapshot, h.encode, h.decode_snapshot, fun other hfits' hreads' => ?_⟩
  have hother : other.Storable := hfits'.storable fun x hx => (hreads' x hx).1
  have hjson := h.json_canonical_inj hother
  refine ⟨other.snapshot, hother.encode, hjson, fun heq => hjson.1 (congrArg json heq), ?_⟩
  intro hsame
  -- The digest is one of the text, so one text makes one snapshot.
  have htext : (record.json canonical).toUTF8 = (other.json canonical).toUTF8 := hjson.2 hsame
  rw [Record.snapshot, Record.snapshot, htext]

/-- Records that differ in the sign of a zero have one snapshot. With another token it changes. -/
theorem codec_measured :
    let record := Record.measured "c0ffee" "first"
    let twin := record.unsignZeros
    let other := Record.measured "c0ffee" "second"
    record ≠ twin ∧ ∃ snapshot snapshot', encode record = .ok snapshot ∧
      encode twin = .ok snapshot ∧ encode other = .ok snapshot' ∧ snapshot ≠ snapshot' := by
  intro record twin other
  have hfits : record.Fits := (Record.storable_measured (by decide) (by decide)).size
  have hfits' : other.Fits := (Record.storable_measured (by decide) (by decide)).size
  have htwin : twin.Fits := by
    rw [Record.Fits, Record.json_canonical_unsignZeros]
    exact hfits
  have hreads {record : Record} (h : record.Finite) : record.Rereads := fun x hx =>
    Json.rereads_canonical (h x hx)
  have hsame : record.Same twin := Record.same_of_unsignZeros_eq (by decide) (by decide)
  obtain ⟨snapshot, hencode, -, hall⟩ := codec hfits (hreads (by decide))
  obtain ⟨snapshot₁, htwin', -, heq⟩ := hall twin htwin (hreads (by decide))
  obtain ⟨snapshot₂, hother, -, hne⟩ := hall other hfits' (hreads (by decide))
  rw [← heq.2 hsame] at htwin'
  refine ⟨by decide, snapshot, snapshot₂, hencode, htwin', hother, fun h => ?_⟩
  have htoken : (⟨"first"⟩ : VersionToken) = ⟨"second"⟩ := (hne.1 h).versionToken
  exact absurd htoken (by decide)

end Snapshot

end RevisionLedger
