/-
Payloads under their length and checksum.

A record of the journal and an entry of a shard differ in what stands in front; behind it
both have a length, the payload and the payload's checksum.  `readSealed` is what their two
readers have in common.  It is exact in both directions: what was sealed is read back, and
what is read was sealed.

The check of the length adds the checksum's four bytes in 32 bits.  A length that wraps past
it, and is more than what is left, is an overrun.
-/
import Vycor.Proofs.CheckpointWire

namespace Vycor

open Wire

namespace Checkpoint

/-! ### Reads that fail

A reader that was asked for more than it has fails, and goes on failing.
-/

/-- Once a read has overrun the buffer, every later check fails. -/
theorem need_failed (n : Nat) (rest : Bytes) :
    (need n).run ⟨rest, false⟩ = (false, ⟨rest, false⟩) := rfl

theorem u32_short {rest : Bytes} (h : rest.length < 4) :
    u32.run ⟨rest, true⟩ = (0, ⟨rest, false⟩) := by
  unfold u32
  rw [StateT.run_bind, need_run, decide_eq_false (Nat.not_le.mpr h)]
  rfl

theorem u32_failed (rest : Bytes) : u32.run ⟨rest, false⟩ = (0, ⟨rest, false⟩) := rfl

/-! ### Reads that succeed are exact

A number that was read without a failure is the bytes it was read from.
-/

theorem need_exact {n : Nat} {r : Reader} (h : ((need n).run r).1 = true) :
    (need n).run r = (true, r) ∧ r.ok = true ∧ n ≤ r.rest.length := by
  obtain ⟨rest, ok⟩ := r
  cases ok with
  | false =>
      rw [need_failed] at h
      exact absurd h Bool.false_ne_true
  | true =>
      rw [need_run] at h ⊢
      have hfits : n ≤ rest.length := of_decide_eq_true h
      rw [decide_eq_true hfits]
      exact ⟨rfl, rfl, hfits⟩

theorem need_refused {n : Nat} {r : Reader} (h : ((need n).run r).1 = false) :
    ((need n).run r).2.ok = false := by
  obtain ⟨rest, ok⟩ := r
  cases ok with
  | false => rfl
  | true =>
      rw [need_run] at h ⊢
      exact h

theorem u32_run {rest : Bytes} (h : 4 ≤ rest.length) :
    u32.run ⟨rest, true⟩ = (UInt32.ofNat (leValue (rest.take 4)), ⟨rest.drop 4, true⟩) := by
  unfold u32
  rw [StateT.run_bind, need_run, decide_eq_true h]
  rfl

theorem u32_exact {r : Reader} (h : (u32.run r).2.ok = true) :
    r.ok = true ∧ (u32.run r).2.rest.length + 4 = r.rest.length ∧
      r.rest = putU32 (u32.run r).1 ++ (u32.run r).2.rest := by
  obtain ⟨rest, ok⟩ := r
  cases ok with
  | false =>
      rw [u32_failed] at h
      exact absurd h Bool.false_ne_true
  | true =>
      by_cases hshort : rest.length < 4
      · rw [u32_short hshort] at h
        exact absurd h Bool.false_ne_true
      · have hlen : (rest.take 4).length = 4 := by
          rw [List.length_take]
          omega
        have hfour := leValue_lt (rest.take 4)
        rw [hlen] at hfour
        have hvalue : (UInt32.ofNat (leValue (rest.take 4))).toNat = leValue (rest.take 4) :=
          UInt32.toNat_ofNat_of_lt' hfour
        have hbytes := leBytes_leValue (rest.take 4)
        rw [hlen] at hbytes
        rw [u32_run (Nat.not_lt.mp hshort)]
        refine ⟨rfl, ?_, ?_⟩
        · show (rest.drop 4).length + 4 = rest.length
          rw [List.length_drop]
          omega
        · show rest = leBytes 4 _ ++ rest.drop 4
          rw [hvalue, hbytes, List.take_append_drop]

/-! ### Sealed payloads -/

/-- A payload behind its length and in front of its checksum. -/
def sealedBytes (payload : Bytes) : Bytes :=
  putU32 (UInt32.ofNat payload.length) ++ (payload ++ putU32 (fnv32 payload))

/-- What is found where a payload should be. -/
inductive Sealed
  /-- Cut short, or not what the checksum says. -/
  | broken
  /-- The length wrapped past the check. -/
  | overrun
  | payload (bytes : Bytes) (rest : Reader)

/-- A payload, or why there is none. -/
def readSealed (stream : Reader) : Sealed :=
  let len := u32.run stream
  let fits := (need (len.1 + 4).toNat).run len.2
  let n := len.1.toNat
  if !fits.1 then .broken
  else if fits.2.rest.length < n + 4 then .overrun
  else
    let payload := (take n).run fits.2
    let checksum := u32.run payload.2
    if checksum.1 ≠ fnv32 payload.1 then .broken else .payload payload.1 checksum.2

/-- A length whose check wraps, in front of fewer bytes than it says. -/
def WrapsSealed (bytes : Bytes) : Prop :=
  ∃ len tail, bytes = putU32 len ++ tail ∧
    (len + 4).toNat ≤ tail.length ∧ tail.length < len.toNat + 4

/-- What was sealed is read back, also where its length wraps. -/
theorem readSealed_sealedBytes {payload : Bytes} (hlen : payload.length < 2 ^ 32) (rest : Bytes) :
    readSealed ⟨sealedBytes payload ++ rest, true⟩ = .payload payload ⟨rest, true⟩ := by
  have hn : (UInt32.ofNat payload.length).toNat = payload.length :=
    UInt32.toNat_ofNat_of_lt' hlen
  obtain ⟨after, hafter⟩ : ∃ after, after = payload ++ (putU32 (fnv32 payload) ++ rest) :=
    ⟨_, rfl⟩
  have hcount := reads_u32 (UInt32.ofNat payload.length) (by simp [putU32]) after
  have hsum := reads_u32 (fnv32 payload) (by simp [putU32]) rest
  have hroom : payload.length + 4 ≤ after.length := by simp [hafter, putU32]
  have hneed : (UInt32.ofNat payload.length + 4).toNat ≤ after.length := by
    refine Nat.le_trans ?_ hroom
    rw [UInt32.toNat_add, hn]
    exact Nat.mod_le _ _
  have hbytes : sealedBytes payload ++ rest
      = putU32 (UInt32.ofNat payload.length) ++ after := by
    simp only [sealedBytes, hafter, List.append_assoc]
  unfold readSealed
  rw [hbytes]
  simp only [hcount, need_run, decide_eq_true hneed, hn, Nat.not_lt.mpr hroom, take_run,
    Bool.not_true, Bool.false_eq_true, if_false]
  simp only [hafter, List.take_left, List.drop_left, hsum, ne_eq, not_true_eq_false, if_false]

/-- A sealed payload that is cut short is none, wherever the cut is. -/
theorem readSealed_take {payload : Bytes} (hlen : payload.length + 4 < 2 ^ 32) {n : Nat}
    (hn : n < (sealedBytes payload).length) :
    readSealed ⟨(sealedBytes payload).take n, true⟩ = .broken := by
  set tailBytes := payload ++ putU32 (fnv32 payload) with htail
  have htailLen : tailBytes.length = payload.length + 4 := by simp [htail, putU32]
  have hbytes : sealedBytes payload = putU32 (UInt32.ofNat payload.length) ++ tailBytes := rfl
  have h4 : (putU32 (UInt32.ofNat payload.length)).length = 4 := by simp [putU32]
  rw [hbytes] at hn ⊢
  rw [List.length_append, h4] at hn
  unfold readSealed
  by_cases hfour : n < 4
  · -- the length field is incomplete
    have hshort : ((putU32 (UInt32.ofNat payload.length) ++ tailBytes).take n).length < 4 := by
      rw [List.length_take]
      omega
    simp only [u32_short hshort, need_failed, Bool.not_false, if_true]
  · -- the length field asks for more than is left
    have hpl : (UInt32.ofNat payload.length).toNat = payload.length :=
      UInt32.toNat_ofNat_of_lt' (show _ < 2 ^ 32 by omega)
    have hwrap : (UInt32.ofNat payload.length + 4).toNat = payload.length + 4 := by
      rw [UInt32.toNat_add, hpl]
      exact Nat.mod_eq_of_lt hlen
    have hcount := reads_u32 (UInt32.ofNat payload.length) (by simp [putU32])
    have hsplit : (putU32 (UInt32.ofNat payload.length) ++ tailBytes).take n
        = putU32 (UInt32.ofNat payload.length) ++ tailBytes.take (n - 4) := by
      rw [List.take_append, h4, List.take_of_length_le (by omega)]
    have hmissing : ¬ payload.length + 4 ≤ (tailBytes.take (n - 4)).length := by
      rw [List.length_take]
      omega
    rw [hsplit]
    simp only [hcount, need_run, hwrap, decide_eq_false hmissing, Bool.not_false, if_true]

/-- What is read as a payload was sealed. -/
theorem readSealed_exact {stream : Reader} {payload : Bytes} {rest : Reader}
    (h : readSealed stream = .payload payload rest) :
    stream.ok = true ∧ rest.ok = true ∧ payload.length < 2 ^ 32 ∧
      stream.rest = sealedBytes payload ++ rest.rest := by
  simp only [readSealed] at h
  generalize hlen : u32.run stream = len at h
  by_cases hneed : ((need (len.1 + 4).toNat).run len.2).1 = true
  · obtain ⟨hsame, hok, -⟩ := need_exact hneed
    simp only [hsame, Bool.not_true, Bool.false_eq_true, if_false] at h
    by_cases hover : len.2.rest.length < len.1.toNat + 4
    · rw [if_pos hover] at h
      cases h
    · rw [if_neg hover, take_run] at h
      set after : Reader := { len.2 with rest := len.2.rest.drop len.1.toNat } with hafter
      have hroom : 4 ≤ after.rest.length := by
        show 4 ≤ (len.2.rest.drop len.1.toNat).length
        rw [List.length_drop]
        omega
      by_cases hsum : (u32.run after).1 ≠ fnv32 (len.2.rest.take len.1.toNat)
      · rw [if_pos hsum] at h
        cases h
      · rw [if_neg hsum] at h
        injection h with hpayload hrest
        have hokAfter : (u32.run after).2.ok = true := by
          have hr : after = ⟨after.rest, true⟩ := by
            rw [hafter]
            simp [hok]
          rw [hr, u32_run hroom]
        obtain ⟨hstream, -, hlenBytes⟩ := u32_exact (by rw [hlen]; exact hok)
        obtain ⟨-, -, hsumBytes⟩ := u32_exact hokAfter
        have hpl : payload.length = len.1.toNat := by
          rw [← hpayload, List.length_take]
          omega
        have hsplit : len.2.rest = payload ++ after.rest := by
          rw [← hpayload]
          exact (List.take_append_drop _ _).symm
        have hsum : (u32.run after).1 = fnv32 payload := by
          rw [← hpayload]
          simpa using hsum
        rw [hlen] at hlenBytes
        refine ⟨hstream, hrest ▸ hokAfter, hpl ▸ len.1.toNat_lt, ?_⟩
        rw [hlenBytes, hsplit, hsumBytes, hsum, hrest]
        simp only [sealedBytes, hpl, UInt32.ofNat_toNat, List.append_assoc]
  · have hneed : ((need (len.1 + 4).toNat).run len.2).1 = false := by simpa using hneed
    simp only [hneed, Bool.not_false, if_true] at h
    cases h

/-- The reader overruns where the check of a length wraps, and nowhere else. -/
theorem readSealed_overrun_iff (stream : Reader) :
    readSealed stream = .overrun ↔ stream.ok = true ∧ WrapsSealed stream.rest := by
  constructor
  · intro h
    simp only [readSealed] at h
    generalize hlen : u32.run stream = len at h
    by_cases hneed : ((need (len.1 + 4).toNat).run len.2).1 = true
    · obtain ⟨hsame, hok, hfits⟩ := need_exact hneed
      simp only [hsame, Bool.not_true, Bool.false_eq_true, if_false] at h
      by_cases hover : len.2.rest.length < len.1.toNat + 4
      · obtain ⟨hstream, -, hlenBytes⟩ := u32_exact (by rw [hlen]; exact hok)
        rw [hlen] at hlenBytes
        exact ⟨hstream, len.1, len.2.rest, hlenBytes, hfits, hover⟩
      · rw [if_neg hover] at h
        split at h <;> cases h
    · have hneed : ((need (len.1 + 4).toNat).run len.2).1 = false := by simpa using hneed
      simp only [hneed, Bool.not_false, if_true] at h
      cases h
  · obtain ⟨bytes, ok⟩ := stream
    rintro ⟨rfl, len, tail, rfl, hfits, hover⟩
    have hcount := reads_u32 len (by simp [putU32]) tail
    unfold readSealed
    simp only [hcount, need_run, decide_eq_true hfits, hover, Bool.not_true,
      Bool.false_eq_true, if_false, if_true]

end Checkpoint

end Vycor
