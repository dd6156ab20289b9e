/-
What the journal's loader takes from a file, whatever bytes the file holds.

A record, as the framing sees it, is a kind and a payload; whether the payload decodes is
settled record by record.  Every byte string splits in one way into records and a rest that
no record starts: that is its valid prefix, and `loadRecords_validPrefix` says that the
loader applies exactly those records.  It says so except where the length field of the rest
wraps past the bounds check, and there the source reads beyond its buffer.

The shard reader has the same check and the same exception.
-/
import Vycor.Proofs.WorkerShard

namespace Vycor

open Wire Checkpoint

namespace AnnealCheckpoint

/-! ### Records -/

/-- A kind and a payload. -/
abbrev Rec := UInt8 × Bytes

/-- The records one after the other, each in its frame. -/
def recordBytes (recs : List Rec) : Bytes := recs.flatMap fun r => frame r.1 r.2

/-- The effect of a record, applied or skipped. -/
def applyRec (c : AnnealCheckpoint) (r : Rec) : AnnealCheckpoint := c.loadRecord r.1 r.2

/-- The payload's length fits its field. -/
def WellFramed (r : Rec) : Prop := r.2.length < 2 ^ 32

/-- No record starts here. -/
def Ends (bytes : Bytes) : Prop := ∀ r tail, WellFramed r → bytes ≠ frame r.1 r.2 ++ tail

/-- The records that a file starts with, and what is left where no further one starts. -/
structure ValidPrefix (data : Bytes) (recs : List Rec) (rest : Bytes) : Prop where
  bytes : data = recordBytes recs ++ rest
  framed : ∀ r ∈ recs, WellFramed r
  ends : Ends rest

/-- A record header whose length, with the checksum's four bytes added in 32 bits, fits
what is left although the length itself does not. -/
def WrapsPast (bytes : Bytes) : Prop :=
  ∃ kind len tail, bytes = putU8 kind ++ (putU32 len ++ tail) ∧
    (len + 4).toNat ≤ tail.length ∧ tail.length < len.toNat + 4

/-! ### Reading one record -/

theorem u8_exact {r : Reader} (h : (u8.run r).2.ok = true) :
    r.ok = true ∧ r.rest = putU8 (u8.run r).1 ++ (u8.run r).2.rest := by
  obtain ⟨rest, ok⟩ := r
  cases ok with
  | false => exact absurd h Bool.false_ne_true
  | true =>
      cases rest with
      | nil => exact absurd h Bool.false_ne_true
      | cons b rest =>
          have hread := reads_u8 b (by simp [putU8]) rest
          rw [putU8, List.singleton_append] at hread
          rw [hread]
          exact ⟨rfl, rfl⟩

/-- What is read as a record is the bytes of one. -/
theorem readFrame_exact {stream : Reader} {kind : UInt8} {payload : Bytes} {rest : Reader}
    (h : readFrame stream = .record kind payload rest) :
    rest.ok = true ∧ payload.length < 2 ^ 32 ∧
      stream.rest = frame kind payload ++ rest.rest := by
  rw [readFrame_eq] at h
  cases hread : readSealed (u8.run stream).2 with
  | broken =>
      rw [hread] at h
      cases h
  | overrun =>
      rw [hread] at h
      cases h
  | payload bytes after =>
      rw [hread] at h
      injection h with hkind hpayload hrest
      obtain ⟨hok, hafter, hlen, hbytes⟩ := readSealed_exact hread
      obtain ⟨-, hkindBytes⟩ := u8_exact hok
      subst hpayload hrest
      refine ⟨hafter, hlen, ?_⟩
      rw [hkindBytes, hbytes, hkind]
      exact (List.append_assoc ..).symm

theorem readFrame_overrun_iff (bytes : Bytes) :
    readFrame ⟨bytes, true⟩ = .overrun ↔ WrapsPast bytes := by
  constructor
  · intro h
    rw [readFrame_eq] at h
    cases hread : readSealed (u8.run ⟨bytes, true⟩).2 with
    | broken =>
        rw [hread] at h
        cases h
    | overrun =>
        obtain ⟨hok, len, tail, hbytes, hfits, hover⟩ := (readSealed_overrun_iff _).mp hread
        obtain ⟨-, hkindBytes⟩ := u8_exact hok
        exact ⟨_, len, tail, hbytes ▸ hkindBytes, hfits, hover⟩
    | payload payload after =>
        rw [hread] at h
        cases h
  · rintro ⟨kind, len, tail, rfl, hfits, hover⟩
    rw [readFrame_eq, reads_u8 kind (by simp [putU8]),
      (readSealed_overrun_iff _).mpr ⟨rfl, len, tail, rfl, hfits, hover⟩]
    rfl

theorem frame_pos (kind : UInt8) (payload : Bytes) : 0 < (frame kind payload).length := by
  simp [frame, putU8]

/-- Where no record starts, the loader stops or reads beyond the buffer. -/
theorem Ends.readFrame {rest : Bytes} (h : Ends rest) :
    AnnealCheckpoint.readFrame ⟨rest, true⟩ = .tail ∨ WrapsPast rest := by
  cases hread : AnnealCheckpoint.readFrame ⟨rest, true⟩ with
  | tail => exact Or.inl rfl
  | overrun => exact Or.inr ((readFrame_overrun_iff rest).mp hread)
  | record kind payload after =>
      obtain ⟨-, hlen, hbytes⟩ := readFrame_exact hread
      exact absurd hbytes (h (kind, payload) after.rest hlen)

/-! ### The loop -/

/-- Every byte string has a valid prefix. -/
theorem exists_validPrefix (data : Bytes) : ∃ recs rest, ValidPrefix data recs rest := by
  induction hn : data.length using Nat.strong_induction_on generalizing data with
  | _ n ih =>
      by_cases hends : Ends data
      · exact ⟨[], data, rfl, by simp, hends⟩
      · obtain ⟨r, tail, hr, hbytes⟩ : ∃ r tail, WellFramed r ∧ data = frame r.1 r.2 ++ tail := by
          by_contra hnone
          push Not at hnone
          exact hends fun r tail hr => hnone r tail hr
        have hpos := frame_pos r.1 r.2
        have hlt : tail.length < n := by
          rw [← hn, hbytes, List.length_append]
          omega
        obtain ⟨recs, rest, hrest⟩ := ih tail.length hlt tail rfl
        refine ⟨r :: recs, rest, ?_, ?_, hrest.ends⟩
        · rw [hbytes, hrest.bytes]
          simp only [recordBytes, List.flatMap_cons, List.append_assoc]
        · exact List.forall_mem_cons.mpr ⟨hr, hrest.framed⟩

/-- Records are taken in one after the other, up to where none starts. -/
theorem loadFrames_records (recs : List Rec) (hrecs : ∀ r ∈ recs, WellFramed r) {rest : Bytes}
    (hends : Ends rest) (hsafe : ¬ WrapsPast rest) (fuel : Nat) (c : AnnealCheckpoint)
    (hfuel : (recordBytes recs).length ≤ fuel) :
    loadFrames fuel c ⟨recordBytes recs ++ rest, true⟩ = some (recs.foldl applyRec c) := by
  induction recs generalizing fuel c with
  | nil => exact loadFrames_stops fuel c (Or.inr (hends.readFrame.resolve_right hsafe))
  | cons r recs ih =>
      have hr : WellFramed r := hrecs r List.mem_cons_self
      have hbytes : recordBytes (r :: recs) ++ rest
          = frame r.1 r.2 ++ (recordBytes recs ++ rest) := by
        simp only [recordBytes, List.flatMap_cons, List.append_assoc]
      have hpos := frame_pos r.1 r.2
      have hlength : (recordBytes (r :: recs)).length
          = (frame r.1 r.2).length + (recordBytes recs).length := by
        simp only [recordBytes, List.flatMap_cons, List.length_append]
      obtain ⟨fuel, rfl⟩ : ∃ k, fuel = k + 1 := ⟨fuel - 1, by omega⟩
      have hne : frame r.1 r.2 ++ (recordBytes recs ++ rest) ≠ [] := by
        intro hnil
        rw [List.append_eq_nil_iff] at hnil
        simp [hnil.1] at hpos
      rw [hbytes, loadFrames, if_pos (by rw [Bool.true_and]; exact decide_eq_true hne),
        readFrame_frame _ hr]
      exact ih (fun x hx => hrecs x (List.mem_cons_of_mem _ hx)) fuel _ (by omega)

theorem loadFrames_wraps (recs : List Rec) (hrecs : ∀ r ∈ recs, WellFramed r) {rest : Bytes}
    (hwraps : WrapsPast rest) (fuel : Nat) (c : AnnealCheckpoint)
    (hfuel : (recordBytes recs ++ rest).length ≤ fuel) :
    loadFrames fuel c ⟨recordBytes recs ++ rest, true⟩ = none := by
  have hne : rest ≠ [] := by
    rintro rfl
    obtain ⟨kind, len, tail, hbytes, -⟩ := hwraps
    simp [putU8] at hbytes
  induction recs generalizing fuel c with
  | nil =>
      have hpos := List.length_pos_iff.mpr hne
      obtain ⟨fuel, rfl⟩ : ∃ k, fuel = k + 1 := by
        refine ⟨fuel - 1, ?_⟩
        have : rest.length ≤ fuel := hfuel
        omega
      show loadFrames (fuel + 1) c ⟨rest, true⟩ = none
      rw [loadFrames, if_pos (by rw [Bool.true_and]; exact decide_eq_true hne),
        (readFrame_overrun_iff rest).mpr hwraps]
  | cons r recs ih =>
      have hr : WellFramed r := hrecs r List.mem_cons_self
      have hbytes : recordBytes (r :: recs) ++ rest
          = frame r.1 r.2 ++ (recordBytes recs ++ rest) := by
        simp only [recordBytes, List.flatMap_cons, List.append_assoc]
      have hpos := frame_pos r.1 r.2
      rw [hbytes, List.length_append] at hfuel
      obtain ⟨fuel, rfl⟩ : ∃ k, fuel = k + 1 := ⟨fuel - 1, by omega⟩
      have hne' : frame r.1 r.2 ++ (recordBytes recs ++ rest) ≠ [] := by
        intro hnil
        rw [List.append_eq_nil_iff] at hnil
        simp [hnil.1] at hpos
      rw [hbytes, loadFrames, if_pos (by rw [Bool.true_and]; exact decide_eq_true hne'),
        readFrame_frame _ hr]
      exact ih (fun x hx => hrecs x (List.mem_cons_of_mem _ hx)) fuel _ (by omega)

/-- **The loader applies exactly the records of the valid prefix**, unless the rest wraps
past the bounds check. -/
theorem loadRecords_validPrefix {data rest : Bytes} {recs : List Rec}
    (h : ValidPrefix data recs rest) (c : AnnealCheckpoint) :
    (¬ WrapsPast rest → loadRecords c data = some (recs.foldl applyRec c)) ∧
      (WrapsPast rest → loadRecords c data = none) := by
  obtain ⟨rfl, hrecs, hends⟩ := h
  constructor
  · intro hsafe
    exact loadFrames_records recs hrecs hends hsafe _ c (by simp)
  · intro hwraps
    exact loadFrames_wraps recs hrecs hwraps _ c (Nat.le_refl _)

/-- The loader stays in the buffer and applies the longest valid prefix. -/
def LoadsPrefix (data : Bytes) : Prop :=
  ∀ recs rest, ValidPrefix data recs rest → ∀ c, loadRecords c data = some (recs.foldl applyRec c)

theorem loadsPrefix_iff (data : Bytes) :
    LoadsPrefix data ↔ ∀ recs rest, ValidPrefix data recs rest → ¬ WrapsPast rest := by
  constructor
  · intro hload recs rest hpre hwraps
    have hsome := hload recs rest hpre {}
    rw [(loadRecords_validPrefix hpre {}).2 hwraps] at hsome
    exact absurd hsome (by simp)
  · intro hsafe recs rest hpre c
    exact (loadRecords_validPrefix hpre c).1 (hsafe recs rest hpre)

end AnnealCheckpoint

/-! ### Shard files

The reader of shards makes the same bounds check and so leaves its buffer on the
same condition.
-/

namespace WorkerShard

section Bounds

variable {σ α : Type} {decode : Read α} {magic : Bytes}

/-- The loop reads beyond the buffer exactly when one of the announced entries wraps past the
bounds check after sound ones. -/
theorem readEntries_none_iff (fn : Str → α → σ → σ) (n : Nat) (bytes : Bytes) (s : σ) :
    readEntries (decoding decode fn) n ⟨bytes, true⟩ s = none ↔
      ∃ entries rest, bytes = entryBytes entries ++ rest ∧ entries.length < n ∧
        (∀ entry ∈ entries, Sound decode entry) ∧ Overruns rest := by
  constructor
  · intro h
    induction n generalizing bytes s with
    | zero =>
        have hsome : some (true, s) = none := h
        exact absurd hsome (by simp)
    | succ n ih =>
        rw [readEntries_succ] at h
        cases hentry : readEntry ⟨bytes, true⟩ with
        | broken =>
            rw [hentry] at h
            exact absurd h (by simp)
        | overrun =>
            exact ⟨[], bytes, rfl, Nat.zero_lt_succ n, by simp,
              (readEntry_overrun_iff bytes).mp hentry⟩
        | entry tu payload after =>
            obtain ⟨-, hafter, hfits, hbytes⟩ := readEntry_exact hentry
            rw [hentry] at h
            simp only at h
            cases hdecode : (decode.run ⟨payload, true⟩).2.ok with
            | false =>
                simp only [decoding, hdecode, Bool.false_eq_true, if_false] at h
                exact absurd h (by simp)
            | true =>
                have hsound : Sound decode (tu, payload) := ⟨hfits, hdecode⟩
                have hone : ∀ t, decoding decode fn tu payload t
                    = (true, fn tu (decode.run ⟨payload, true⟩).1 t) := decoding_sound hsound fn
                have hreader : after = ⟨after.rest, true⟩ := by rw [← hafter]
                simp only [hone, if_true] at h
                rw [hreader] at h
                obtain ⟨entries, rest, hrest, hlen, hall, hover⟩ := ih _ _ h
                refine ⟨(tu, payload) :: entries, rest, ?_, Nat.succ_lt_succ hlen,
                  List.forall_mem_cons.mpr ⟨hsound, hall⟩, hover⟩
                have hbytes : bytes = shardEntry tu payload ++ after.rest := hbytes
                rw [hbytes, hrest]
                simp only [entryBytes, List.flatMap_cons, List.append_assoc]
  · rintro ⟨entries, rest, rfl, hlen, hall, hover⟩
    obtain ⟨m, rfl⟩ : ∃ m, n = entries.length + (m + 1) := ⟨n - entries.length - 1, by omega⟩
    rw [readEntries_sound _ _ hall, readEntries_succ, (readEntry_overrun_iff rest).mpr hover]

/-- A header, sound entries, and where the next of the announced entries should stand, a
length that wraps past the bounds check. -/
def WrapsInFile (magic : Bytes) (decode : Read α) (file : Option Bytes) : Prop :=
  ∃ count entries rest,
    file = some (shardHeader magic count ++ (entryBytes entries ++ rest)) ∧
    entries.length < count.toNat ∧ (∀ entry ∈ entries, Sound decode entry) ∧ Overruns rest

theorem readShardFile_none_iff (hmagic : magic.length = 4) (file : Option Bytes)
    (fn : Str → α → σ → σ) (s : σ) :
    readShardFile file magic (decoding decode fn) s = none ↔ WrapsInFile magic decode file := by
  constructor
  · intro h
    rcases readShardFile_cases file (decoding decode fn) s with
      hrejected | ⟨count, body, hfile, hentries⟩
    · rw [hrejected] at h
      exact absurd h (by simp)
    · rw [hentries] at h
      obtain ⟨entries, rest, hbody, hlen, hall, hover⟩ := (readEntries_none_iff fn _ _ s).mp h
      exact ⟨count, entries, rest, hbody ▸ hfile, hlen, hall, hover⟩
  · rintro ⟨count, entries, rest, rfl, hlen, hall, hover⟩
    rw [readShardFile_header hmagic]
    exact (readEntries_none_iff fn _ _ s).mpr ⟨entries, rest, rfl, hlen, hall, hover⟩

/-- The reader stays in the buffer, whatever the callback does. -/
def ReadsInBounds (magic : Bytes) (decode : Read α) (file : Option Bytes) : Prop :=
  ∀ (σ : Type) (fn : Str → α → σ → σ) (s : σ), readShardFile file magic (decoding decode fn) s ≠ none

theorem readsInBounds_iff (hmagic : magic.length = 4) (file : Option Bytes) :
    ReadsInBounds magic decode file ↔ ¬ WrapsInFile magic decode file := by
  constructor
  · exact fun h hwraps => h Unit (fun _ _ s => s) () ((readShardFile_none_iff hmagic ..).mpr hwraps)
  · exact fun h σ fn s hnone => h ((readShardFile_none_iff hmagic ..).mp hnone)

end Bounds

end WorkerShard

end Vycor
