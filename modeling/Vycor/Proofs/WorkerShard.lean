/-
When a rejected shard has already been consumed.

The reader decodes and hands over one entry after the other, so a shard that turns out bad
at a later entry is rejected after the earlier ones were consumed, and the retry consumes
them again.  `BreaksLate` is that kind of file: some whole entries and then one that is
cut short, fails its checksum or does not decode.  `shard_all_or_nothing` says that no
other file is consumed in part.

Reading is exact in both directions: written entries are read back, and what is read as
an entry is the bytes of one.
-/
import Vycor.Model.WorkerShard
import Vycor.Proofs.Checkpoint

namespace Vycor

open Wire Checkpoint AnnealCheckpoint

namespace WorkerShard

/-! ### Names

The name of a TU stands in front of its payload. A string that was read is the
bytes it was read from.
-/

theorem readStr_exact {r : Reader} (h : (readStr.run r).2.ok = true) :
    r.ok = true ∧ (readStr.run r).1.length < 2 ^ 32 ∧
      r.rest = putStr (readStr.run r).1 ++ (readStr.run r).2.rest := by
  set count := u32.run r with hcount
  have hrun : readStr.run r
      = (do if ← need count.1.toNat then take count.1.toNat else return []).run count.2 := rfl
  by_cases hneed : ((need count.1.toNat).run count.2).1 = true
  · obtain ⟨hsame, hok, hfits⟩ := need_exact hneed
    have hstr : readStr.run r = (count.2.rest.take count.1.toNat,
        { count.2 with rest := count.2.rest.drop count.1.toNat }) := by
      rw [hrun, StateT.run_bind, hsame]
      rfl
    obtain ⟨hr, -, hbytes⟩ := u32_exact (hcount ▸ hok)
    have hlen : (count.2.rest.take count.1.toNat).length = count.1.toNat := by
      rw [List.length_take]
      omega
    rw [hstr]
    refine ⟨hr, ?_, ?_⟩
    · show (count.2.rest.take count.1.toNat).length < 2 ^ 32
      rw [hlen]
      exact count.1.toNat_lt
    · show r.rest = putStr _ ++ count.2.rest.drop count.1.toNat
      rw [putStr, hlen, UInt32.ofNat_toNat, List.append_assoc, List.take_append_drop]
      exact hbytes
  · have hneed : ((need count.1.toNat).run count.2).1 = false := by simpa using hneed
    have hbad := need_refused hneed
    have hstr : readStr.run r = ([], ((need count.1.toNat).run count.2).2) := by
      rw [hrun, StateT.run_bind]
      generalize (need count.1.toNat).run count.2 = res at hneed ⊢
      obtain ⟨b, r'⟩ := res
      have hb : b = false := hneed
      subst hb
      rfl
    rw [hstr] at h
    rw [hbad] at h
    exact absurd h Bool.false_ne_true

/-! ### Entries -/

/-- The lengths of the entry fit their fields. -/
def Fits (tu : Str) (payload : Bytes) : Prop := tu.length < 2 ^ 32 ∧ payload.length < 2 ^ 32

/-- An entry is a TU and what was sealed behind it. -/
def asEntry (tu : Str) : Sealed → ShardEntry
  | .broken => .broken
  | .overrun => .overrun
  | .payload bytes rest => .entry tu bytes rest

theorem readEntry_eq (stream : Reader) :
    readEntry stream
      = asEntry (readStr.run stream).1 (readSealed (readStr.run stream).2) := by
  unfold readEntry readSealed
  dsimp only
  split_ifs <;> rfl

/-- What was written is read back. -/
theorem readEntry_shardEntry {tu : Str} {payload : Bytes} (hfits : Fits tu payload)
    (rest : Bytes) :
    readEntry ⟨shardEntry tu payload ++ rest, true⟩ = .entry tu payload ⟨rest, true⟩ := by
  have hbytes : shardEntry tu payload ++ rest = putStr tu ++ (sealedBytes payload ++ rest) :=
    List.append_assoc ..
  rw [hbytes, readEntry_eq, readStr_run tu hfits.1, readSealed_sealedBytes hfits.2]
  rfl

/-- What is read as an entry is the bytes of one. -/
theorem readEntry_exact {stream : Reader} {tu : Str} {payload : Bytes} {rest : Reader}
    (h : readEntry stream = .entry tu payload rest) :
    stream.ok = true ∧ rest.ok = true ∧ Fits tu payload ∧
      stream.rest = shardEntry tu payload ++ rest.rest := by
  rw [readEntry_eq] at h
  cases hread : readSealed (readStr.run stream).2 with
  | broken =>
      rw [hread] at h
      cases h
  | overrun =>
      rw [hread] at h
      cases h
  | payload bytes after =>
      rw [hread] at h
      injection h with htu hpayload hrest
      obtain ⟨hname, hafter, hlen, hbytes⟩ := readSealed_exact hread
      obtain ⟨hstream, hshort, hnameBytes⟩ := readStr_exact hname
      subst hpayload hrest
      refine ⟨hstream, hafter, ⟨htu ▸ hshort, hlen⟩, ?_⟩
      rw [hnameBytes, hbytes, htu]
      exact (List.append_assoc ..).symm

/-- Bytes whose length field passes the wrapped bounds check although the payload does not
fit: the source reads beyond its buffer. -/
def Overruns (bytes : Bytes) : Prop :=
  ∃ tu len tail, tu.length < 2 ^ 32 ∧ bytes = putStr tu ++ (putU32 len ++ tail) ∧
    (len + 4).toNat ≤ tail.length ∧ tail.length < len.toNat + 4

theorem readEntry_overrun_iff (bytes : Bytes) :
    readEntry ⟨bytes, true⟩ = .overrun ↔ Overruns bytes := by
  constructor
  · intro h
    rw [readEntry_eq] at h
    cases hread : readSealed (readStr.run ⟨bytes, true⟩).2 with
    | broken =>
        rw [hread] at h
        cases h
    | overrun =>
        obtain ⟨hname, len, tail, hbytes, hfits, hover⟩ := (readSealed_overrun_iff _).mp hread
        obtain ⟨-, hshort, hnameBytes⟩ := readStr_exact hname
        exact ⟨_, len, tail, hshort, hbytes ▸ hnameBytes, hfits, hover⟩
    | payload payload after =>
        rw [hread] at h
        cases h
  · rintro ⟨tu, len, tail, htu, rfl, hfits, hover⟩
    rw [readEntry_eq, readStr_run tu htu,
      (readSealed_overrun_iff _).mpr ⟨rfl, len, tail, rfl, hfits, hover⟩]
    rfl

/-! ### The loop -/

section Loop

variable {σ α : Type} {decode : Read α}

-- The loop only looks at which entry was found, never at how.
attribute [local irreducible] readEntry

/-- An entry that is accepted: its lengths fit and its payload decodes. -/
def Sound (decode : Read α) (entry : Str × Bytes) : Prop :=
  Fits entry.1 entry.2 ∧ (decode.run ⟨entry.2, true⟩).2.ok = true

/-- The bytes of entries, one after the other. -/
def entryBytes (entries : List (Str × Bytes)) : Bytes :=
  entries.flatMap fun entry => shardEntry entry.1 entry.2

/-- What the callback makes of sound entries. -/
def handOver (decode : Read α) (fn : Str → α → σ → σ) (entries : List (Str × Bytes)) (s : σ) : σ :=
  entries.foldl (fun s entry => fn entry.1 (decode.run ⟨entry.2, true⟩).1 s) s

/-- Bytes that are rejected where an entry is expected: no sound entry starts them, and
the source does not read beyond them either. -/
def Rejected (decode : Read α) (bytes : Bytes) : Prop :=
  ¬ Overruns bytes ∧
    ∀ entry tail, Sound decode entry → bytes ≠ shardEntry entry.1 entry.2 ++ tail

theorem decoding_sound {entry : Str × Bytes} (hsound : Sound decode entry)
    (fn : Str → α → σ → σ) (s : σ) :
    decoding decode fn entry.1 entry.2 s
      = (true, fn entry.1 (decode.run ⟨entry.2, true⟩).1 s) := by
  simp only [decoding, hsound.2, if_true]

theorem readEntries_succ (fn : Str → Bytes → σ → Bool × σ) (n : Nat) (stream : Reader) (s : σ) :
    readEntries fn (n + 1) stream s =
      match readEntry stream with
      | .broken => some (false, s)
      | .overrun => none
      | .entry tu payload rest =>
        let res := fn tu payload s
        if res.1 then readEntries fn n rest res.2 else some (false, res.2) := rfl

theorem readEntries_entry (fn : Str → Bytes → σ → Bool × σ) (n : Nat) {stream : Reader}
    {tu : Str} {payload : Bytes} {rest : Reader} (h : readEntry stream = .entry tu payload rest)
    (s : σ) :
    readEntries fn (n + 1) stream s
      = if (fn tu payload s).1 then readEntries fn n rest (fn tu payload s).2
        else some (false, (fn tu payload s).2) := by
  rw [readEntries_succ, h]

/-- The loop hands over the sound entries it meets. -/
theorem readEntries_sound (fn : Str → α → σ → σ) (entries : List (Str × Bytes))
    (hsound : ∀ entry ∈ entries, Sound decode entry) (n : Nat) (rest : Bytes) (s : σ) :
    readEntries (decoding decode fn) (entries.length + n) ⟨entryBytes entries ++ rest, true⟩ s
      = readEntries (decoding decode fn) n ⟨rest, true⟩ (handOver decode fn entries s) := by
  induction entries generalizing s with
  | nil => simp [entryBytes, handOver]
  | cons entry entries ih =>
      have hentry := hsound entry (List.mem_cons_self ..)
      have hbytes : entryBytes (entry :: entries) ++ rest
          = shardEntry entry.1 entry.2 ++ (entryBytes entries ++ rest) := by
        simp only [entryBytes, List.flatMap_cons, List.append_assoc]
      have hcount : (entry :: entries).length + n = (entries.length + n) + 1 := by
        rw [List.length_cons]
        omega
      rw [hbytes, hcount, readEntries_entry _ _ (readEntry_shardEntry hentry.1 _)]
      simp only [decoding_sound hentry, if_true]
      exact ih (fun e he => hsound e (List.mem_cons_of_mem _ he)) _

theorem readEntries_rejected (fn : Str → α → σ → σ) (n : Nat) {bytes : Bytes}
    (hbad : Rejected decode bytes) (s : σ) :
    readEntries (decoding decode fn) (n + 1) ⟨bytes, true⟩ s = some (false, s) := by
  rw [readEntries_succ]
  cases hentry : readEntry ⟨bytes, true⟩ with
  | broken => rfl
  | overrun => exact absurd ((readEntry_overrun_iff bytes).mp hentry) hbad.1
  | entry tu payload rest =>
      obtain ⟨-, -, hfits, hbytes⟩ := readEntry_exact hentry
      have hdecode : (decode.run ⟨payload, true⟩).2.ok = false := by
        by_contra hok
        exact hbad.2 (tu, payload) rest.rest ⟨hfits, by simpa using hok⟩ hbytes
      simp [decoding, hdecode]

/-- A loop that answers false has handed over some sound entries and then met bytes that
are rejected. -/
theorem readEntries_false {fn : Str → α → σ → σ} {n : Nat} {bytes : Bytes} {s s' : σ}
    (h : readEntries (decoding decode fn) n ⟨bytes, true⟩ s = some (false, s')) :
    ∃ entries rest, bytes = entryBytes entries ++ rest ∧ entries.length < n ∧
      (∀ entry ∈ entries, Sound decode entry) ∧ Rejected decode rest ∧
      s' = handOver decode fn entries s := by
  induction n generalizing bytes s with
  | zero =>
      have hok : some (true, s) = some (false, s') := h
      exact absurd hok (by simp)
  | succ n ih =>
      rw [readEntries_succ] at h
      cases hentry : readEntry ⟨bytes, true⟩ with
      | broken =>
          rw [hentry] at h
          have hs : s' = s := by simpa using h.symm
          refine ⟨[], bytes, rfl, Nat.zero_lt_succ n, by simp, ⟨?_, ?_⟩, hs⟩
          · intro hover
            rw [(readEntry_overrun_iff bytes).mpr hover] at hentry
            exact absurd hentry (by simp)
          · intro entry tail hsound hbytes
            rw [hbytes, readEntry_shardEntry hsound.1] at hentry
            exact absurd hentry (by simp)
      | overrun =>
          rw [hentry] at h
          exact absurd h (by simp)
      | entry tu payload after =>
          obtain ⟨-, hafter, hfits, hbytes⟩ := readEntry_exact hentry
          rw [hentry] at h
          simp only at h
          cases hdecode : (decode.run ⟨payload, true⟩).2.ok with
          | true =>
              have hsound : Sound decode (tu, payload) := ⟨hfits, hdecode⟩
              have hone : ∀ t, decoding decode fn tu payload t
                  = (true, fn tu (decode.run ⟨payload, true⟩).1 t) := decoding_sound hsound fn
              simp only [hone, if_true] at h
              have hreader : after = ⟨after.rest, true⟩ := by rw [← hafter]
              rw [hreader] at h
              obtain ⟨entries, rest, hrest, hlen, hall, hbad, hs⟩ := ih h
              refine ⟨(tu, payload) :: entries, rest, ?_, Nat.succ_lt_succ hlen, ?_, hbad, hs⟩
              · show bytes = _
                rw [show bytes = shardEntry tu payload ++ after.rest from hbytes, hrest]
                simp only [entryBytes, List.flatMap_cons, List.append_assoc]
              · intro entry hmem
                rcases List.mem_cons.mp hmem with rfl | hmem
                · exact hsound
                · exact hall entry hmem
          | false =>
              simp only [decoding, hdecode, Bool.false_eq_true, if_false] at h
              have hs : s' = s := by simpa using h.symm
              refine ⟨[], bytes, rfl, Nat.zero_lt_succ n, by simp, ⟨?_, ?_⟩, hs⟩
              · intro hover
                rw [(readEntry_overrun_iff bytes).mpr hover] at hentry
                exact absurd hentry (by simp)
              · intro entry tail hsound hbytes'
                rw [hbytes', readEntry_shardEntry hsound.1] at hentry
                injection hentry with _ hpayload _
                rw [← hpayload, hsound.2] at hdecode
                exact absurd hdecode (by simp)

end Loop

/-! ### The file

A file is turned down before anything of it is handed over, or in the middle of
its entries.
-/

section File

variable {σ α : Type} {decode : Read α} {magic : Bytes}

/-- A header, at least one sound entry, and where the next of the announced entries should
stand, bytes that are rejected. -/
def BreaksLate (magic : Bytes) (decode : Read α) (file : Option Bytes) : Prop :=
  ∃ count entries rest,
    file = some (shardHeader magic count ++ (entryBytes entries ++ rest)) ∧
    entries ≠ [] ∧ entries.length < count.toNat ∧
    (∀ entry ∈ entries, Sound decode entry) ∧ Rejected decode rest

theorem readShardFile_header (hmagic : magic.length = 4) (count : UInt32) (body : Bytes)
    (fn : Str → Bytes → σ → Bool × σ) (s : σ) :
    readShardFile (some (shardHeader magic count ++ body)) magic fn s
      = readEntries fn count.toNat ⟨body, true⟩ s := by
  have hlen : ¬ (shardHeader magic count ++ body).length < 8 := by
    rw [List.length_append, shardHeader, List.length_append, List.length_append, putU32, putU32,
      leBytes_length, leBytes_length, hmagic]
    omega
  have htake : (shardHeader magic count ++ body).take 4 = magic := by
    rw [shardHeader, List.append_assoc, ← hmagic, List.take_left]
  have hdrop : (shardHeader magic count ++ body).drop 4
      = putU32 kShardVersion ++ (putU32 count ++ body) := by
    rw [shardHeader, List.append_assoc, ← hmagic, List.drop_left, List.append_assoc]
  have hversion := reads_u32 kShardVersion (by simp [putU32]) (putU32 count ++ body)
  have hcount := reads_u32 count (by simp [putU32]) body
  simp only [readShardFile, hlen, htake, hdrop, hversion, hcount, false_or, ne_eq,
    not_true_eq_false, if_false]

/-- A file without a header of its kind is rejected at once; else its entries decide. -/
theorem readShardFile_cases (file : Option Bytes) (fn : Str → Bytes → σ → Bool × σ) (s : σ) :
    readShardFile file magic fn s = some (false, s) ∨
      ∃ count body, file = some (shardHeader magic count ++ body) ∧
        readShardFile file magic fn s = readEntries fn count.toNat ⟨body, true⟩ s := by
  unfold readShardFile
  cases file with
  | none => exact .inl rfl
  | some bytes =>
      simp only
      by_cases hmagic : bytes.length < 8 ∨ bytes.take 4 ≠ magic
      · rw [if_pos hmagic]
        exact .inl rfl
      · rw [if_neg hmagic]
        obtain ⟨hlen, hmagic⟩ : 8 ≤ bytes.length ∧ bytes.take 4 = magic := by
          simpa [not_or] using hmagic
        have hver : (u32.run ⟨bytes.drop 4, true⟩).2.ok = true := by
          have hroom : 4 ≤ (bytes.drop 4).length := by
            rw [List.length_drop]
            omega
          unfold u32
          rw [StateT.run_bind, need_run, decide_eq_true hroom]
          rfl
        obtain ⟨-, -, hverBytes⟩ := u32_exact hver
        generalize u32.run ⟨bytes.drop 4, true⟩ = version at hver hverBytes ⊢
        by_cases hversion : version.1 ≠ kShardVersion
        · rw [if_pos hversion]
          exact .inl rfl
        · rw [if_neg hversion]
          have hversion : version.1 = kShardVersion := by simpa using hversion
          generalize hc : u32.run version.2 = count
          cases hok : count.2.ok with
          | true =>
              obtain ⟨-, -, hcountBytes⟩ := u32_exact (by rw [hc]; exact hok)
              rw [hc] at hcountBytes
              have hreader : count.2 = ⟨count.2.rest, true⟩ := by rw [← hok]
              refine .inr ⟨count.1, count.2.rest, ?_, by rw [← hreader]⟩
              have hbytes : bytes = magic ++ bytes.drop 4 := by
                rw [← hmagic, List.take_append_drop]
              have hverBytes : bytes.drop 4 = putU32 version.1 ++ version.2.rest := hverBytes
              rw [hbytes, hverBytes, hversion, hcountBytes, shardHeader]
              simp only [List.append_assoc]
          | false =>
              have hzero : count.1 = 0 := by
                have hshort : version.2.rest.length < 4 := by
                  by_contra hroom
                  have hreader : version.2 = ⟨version.2.rest, true⟩ := by rw [← hver]
                  have hrun : (u32.run version.2).2.ok = true := by
                    rw [hreader]
                    unfold u32
                    rw [StateT.run_bind, need_run, decide_eq_true (Nat.not_lt.mp hroom)]
                    rfl
                  rw [hc, hok] at hrun
                  exact absurd hrun Bool.false_ne_true
                have hreader : version.2 = ⟨version.2.rest, true⟩ := by rw [← hver]
                rw [← hc, hreader, u32_short hshort]
              rw [hzero]
              left
              show some (count.2.ok, s) = some (false, s)
              rw [hok]

/-- A file that is rejected has no header of its kind, or its entries are. -/
theorem readShardFile_false {file : Option Bytes} {fn : Str → Bytes → σ → Bool × σ} {s s' : σ}
    (h : readShardFile file magic fn s = some (false, s')) :
    s' = s ∨ ∃ count body, file = some (shardHeader magic count ++ body) ∧
      readEntries fn count.toNat ⟨body, true⟩ s = some (false, s') := by
  rcases readShardFile_cases file fn s with hrejected | ⟨count, body, hfile, hentries⟩
  · rw [hrejected] at h
    exact .inl (by simpa using h.symm)
  · exact .inr ⟨count, body, hfile, hentries ▸ h⟩

/-- Nothing has been handed over by a rejected file exactly when it does not break late. -/
theorem nothing_handed_over_iff (hmagic : magic.length = 4) (file : Option Bytes) :
    (∀ (σ : Type) (fn : Str → α → σ → σ) (s s' : σ),
        readShardFile file magic (decoding decode fn) s = some (false, s') → s' = s)
      ↔ ¬ BreaksLate magic decode file := by
  constructor
  · rintro hnone ⟨count, entries, rest, rfl, hne, hlen, hsound, hbad⟩
    -- A callback that counts what it is handed.
    have hcounted : ∀ (es : List (Str × Bytes)) (n : Nat),
        handOver decode (fun _ _ n => n + 1) es n = n + es.length := by
      intro es
      induction es with
      | nil => exact fun n => rfl
      | cons e es ih =>
          intro n
          show handOver decode (fun _ _ n => n + 1) es (n + 1) = n + (es.length + 1)
          rw [ih]
          omega
    obtain ⟨m, hm⟩ : ∃ m, count.toNat = entries.length + (m + 1) :=
      ⟨count.toNat - entries.length - 1, by omega⟩
    have hrun := hnone Nat (fun _ _ n => n + 1) 0 entries.length (by
      rw [readShardFile_header hmagic, hm, readEntries_sound _ _ hsound,
        readEntries_rejected _ _ hbad, hcounted, Nat.zero_add])
    exact hne (List.length_eq_zero_iff.mp hrun)
  · intro hsound σ fn s s' h
    rcases readShardFile_false h with hs | ⟨count, body, rfl, hentries⟩
    · exact hs
    · obtain ⟨entries, rest, rfl, hlen, hall, hbad, hs⟩ := readEntries_false hentries
      by_cases hne : entries = []
      · subst hne
        exact hs
      · exact absurd ⟨count, entries, rest, rfl, hne, hlen, hall, hbad⟩ hsound

end File

end WorkerShard

end Vycor
