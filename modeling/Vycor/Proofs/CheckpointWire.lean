/-
The journal's wire form reads back what was written.

Each `put` has the `read` that undoes it, in the sense of `Wire.Reads`: it consumes the
written bytes, whatever follows them, and returns the written value.  The records are
sequences of such fields, so each of their round trips lists the field lemmas in order.
Nothing is assumed about lengths and counts except that the whole is shorter than 2^32
bytes.
-/
import Vycor.Model.Checkpoint

namespace Vycor

open Wire

namespace Checkpoint

/-! ### Fields -/

theorem need_run (n : Nat) (rest : Bytes) :
    (need n).run ⟨rest, true⟩
      = (decide (n ≤ rest.length), ⟨rest, decide (n ≤ rest.length)⟩) := by
  have hpure : ∀ r : Bool × Reader, (pure r : Id (Bool × Reader)) = r := fun _ => rfl
  by_cases h : rest.length < n
  · simp [need, h, Nat.not_le.mpr h, hpure]
  · simp [need, h, Nat.not_lt.mp h, hpure]

theorem take_run (n : Nat) (r : Reader) :
    (take n).run r = (r.rest.take n, { r with rest := r.rest.drop n }) := rfl

/-- A fixed-width read: `f` of the number, or the default when the buffer is too short. -/
private theorem reads_number {α : Type} (n v : Nat) (f : Nat → α) (short : α)
    (hv : v < 256 ^ n) :
    Reads (do if ← need n then return f (leValue (← take n)) else return short)
      (leBytes n v) (f v) := by
  intro _ rest
  have hfits : n ≤ (leBytes n v ++ rest).length := by simp
  have htake : (leBytes n v ++ rest).take n = leBytes n v := by simp
  have hdrop : (leBytes n v ++ rest).drop n = rest := by simp
  rw [StateT.run_bind, need_run, decide_eq_true hfits]
  show (f (leValue _), Reader.mk _ _) = _
  rw [htake, hdrop, leValue_leBytes, Nat.mod_eq_of_lt hv]

theorem reads_u8 (v : UInt8) : Reads u8 (putU8 v) v := by
  have h := reads_number 1 v.toNat UInt8.ofNat 0 v.toNat_lt
  rw [UInt8.ofNat_toNat] at h
  exact h.congr (by simp [putU8, leBytes])

theorem reads_u32 (v : UInt32) : Reads u32 (putU32 v) v := by
  have h := reads_number 4 v.toNat UInt32.ofNat 0 v.toNat_lt
  rwa [UInt32.ofNat_toNat] at h

theorem reads_u64 (v : UInt64) : Reads u64 (putU64 v) v := by
  have h := reads_number 8 v.toNat UInt64.ofNat 0 v.toNat_lt
  rwa [UInt64.ofNat_toNat] at h

theorem readStr_run (s : Str) (hs : s.length < 2 ^ 32) (rest : Bytes) :
    readStr.run ⟨putStr s ++ rest, true⟩ = (s, ⟨rest, true⟩) := by
  have hn : (UInt32.ofNat s.length).toNat = s.length := UInt32.toNat_ofNat_of_lt' hs
  have hcount := reads_u32 (UInt32.ofNat s.length) (by simp [putU32]) (s ++ rest)
  have hfits : s.length ≤ (s ++ rest).length := by simp
  unfold readStr putStr
  rw [List.append_assoc, StateT.run_bind, hcount]
  show StateT.run (need (UInt32.ofNat s.length).toNat >>= _) _ = _
  rw [hn, StateT.run_bind, need_run, decide_eq_true hfits]
  show (List.take _ _, Reader.mk _ _) = _
  simp

theorem reads_str (s : Str) : Reads readStr (putStr s) s := by
  intro hlen rest
  rw [putStr, List.length_append] at hlen
  exact readStr_run s (by omega) rest

theorem reads_bool (b : Bool) : Reads readBool (putBool b) b := by
  have h := (reads_u8 (if b then 1 else 0)).last (f := (· != 0))
  cases b <;> exact h

theorem reads_i32 (v : Int32) : Reads readI32 (putI32 v) v := by
  have h := (reads_u32 v.toUInt32).last (f := UInt32.toInt32)
  rwa [Int32.toInt32_toUInt32] at h

theorem reads_list {α : Type} {one : Read α} {put : α → Bytes} (h : ∀ a, Reads one (put a) a)
    (hpos : ∀ a, 0 < (put a).length) (l : List α) : Reads (readList one) (putList put l) l := by
  intro hlen rest
  have hl : l.length < 2 ^ 32 := by
    have := length_le_flatMap hpos l
    rw [putList, List.length_append] at hlen
    omega
  have hn : (UInt32.ofNat l.length).toNat = l.length := UInt32.toNat_ofNat_of_lt' hl
  have hmany : Reads (readMany one (UInt32.ofNat l.length).toNat) (l.flatMap put) l := by
    rw [hn]
    exact Reads.many fun a _ => h a
  exact (reads_u32 (UInt32.ofNat l.length)).bind hmany hlen rest

theorem putStr_pos (s : Str) : 0 < (putStr s).length := by
  simp [putStr, putU32]

/-- A record that starts with a string takes at least the four bytes of its length. -/
theorem putStr_append_pos (s : Str) (bs : Bytes) : 0 < (putStr s ++ bs).length := by
  simp [putStr, putU32]

theorem reads_strs (l : List Str) : Reads (readList readStr) (putList putStr l) l :=
  reads_list reads_str putStr_pos l

/-! ### Records

Field by field in the order of the writer; each reader is specified by the bytes
it takes.
-/

theorem reads_stamp {tu : Str} {stamp : FileStamp} (h : stamp.path = tu) :
    Reads (readStamp tu) (putStamp stamp) stamp := by
  subst h
  exact (reads_u64 _).bind (reads_u64 _).last

theorem reads_stringPair (p : Str × Str) : Reads readStringPair (putStringPair p) p :=
  (reads_str _).bind (reads_str _).last

theorem reads_overload (e : FunctionOverloadEntry) : Reads decodeOverload (encodeOverload e) e :=
  (reads_str _).bind ((reads_str _).bind ((reads_strs _).bind ((reads_str _).bind
    (reads_u32 _).last)))

theorem reads_guide (e : DeductionGuideEntry) : Reads decodeGuide (encodeGuide e) e :=
  (reads_str _).bind ((reads_str _).bind ((reads_strs _).bind ((reads_str _).bind
    (reads_u32 _).last)))

/-- Each flag of a coverage property is its own bit. -/
theorem coverageFlags_bits (e : CoveragePropertyEntry) :
    (coverageFlags e &&& 0x01 != 0) = e.isInlined ∧ (coverageFlags e &&& 0x02 != 0) = e.isConstexpr ∧
    (coverageFlags e &&& 0x04 != 0) = e.isDefaulted ∧ (coverageFlags e &&& 0x08 != 0) = e.isTrivial ∧
    (coverageFlags e &&& 0x10 != 0) = e.isVirtual ∧
    (coverageFlags e &&& 0x20 != 0) = e.isStaticMethod ∧
    (coverageFlags e &&& 0x40 != 0) = e.isImplicitlyInstantiable := by
  unfold coverageFlags
  generalize e.isInlined = b₀
  generalize e.isConstexpr = b₁
  generalize e.isDefaulted = b₂
  generalize e.isTrivial = b₃
  generalize e.isVirtual = b₄
  generalize e.isStaticMethod = b₅
  generalize e.isImplicitlyInstantiable = b₆
  revert b₀ b₁ b₂ b₃ b₄ b₅ b₆
  decide

theorem reads_coverage (e : CoveragePropertyEntry) : Reads decodeCoverage (encodeCoverage e) e := by
  have hread : Reads decodeCoverage (encodeCoverage e)
      { e with
        isInlined := coverageFlags e &&& 0x01 != 0, isConstexpr := coverageFlags e &&& 0x02 != 0
        isDefaulted := coverageFlags e &&& 0x04 != 0, isTrivial := coverageFlags e &&& 0x08 != 0
        isVirtual := coverageFlags e &&& 0x10 != 0
        isStaticMethod := coverageFlags e &&& 0x20 != 0
        isImplicitlyInstantiable := coverageFlags e &&& 0x40 != 0 } :=
    (reads_str _).bind ((reads_str _).bind ((reads_u32 _).bind ((reads_str _).bind
      ((reads_i32 _).bind ((reads_u8 _).bind ((reads_i32 _).bind ((reads_i32 _).bind
        ((reads_i32 _).bind ((reads_u32 _).bind (reads_str _).last)))))))))
  obtain ⟨h₀, h₁, h₂, h₃, h₄, h₅, h₆⟩ := coverageFlags_bits e
  rwa [h₀, h₁, h₂, h₃, h₄, h₅, h₆] at hread

theorem reads_odr (e : OdrEntry) : Reads decodeOdr (encodeOdr e) e :=
  (reads_str _).bind ((reads_str _).bind ((reads_bool _).bind ((reads_str _).bind
    ((reads_str _).bind ((reads_u32 _).bind (reads_u64 _).last)))))

theorem reads_specialization (e : SpecializationEntry) :
    Reads decodeSpecialization (encodeSpecialization e) e :=
  (reads_str _).bind ((reads_str _).bind ((reads_str _).bind (reads_u32 _).last))

theorem reads_defaultArg (e : DefaultArgEntry) : Reads decodeDefaultArg (encodeDefaultArg e) e :=
  (reads_str _).bind ((reads_str _).bind ((reads_u32 _).bind ((reads_str _).bind
    ((reads_str _).bind ((reads_str _).bind (reads_u32 _).last)))))

/-- The two flags of a flag byte are its two low bits. -/
theorem flags_bits (b₀ b₁ : Bool) :
    ((((if b₀ then 0x01 else 0) ||| (if b₁ then 0x02 else 0) : UInt8) &&& 0x01 != 0) = b₀) ∧
    ((((if b₀ then 0x01 else 0) ||| (if b₁ then 0x02 else 0) : UInt8) &&& 0x02 != 0) = b₁) := by
  cases b₀ <;> cases b₁ <;> decide

theorem reads_staticInit (e : StaticInitEntry) : Reads decodeStaticInit (encodeStaticInit e) e := by
  have hread : Reads decodeStaticInit (encodeStaticInit e)
      { e with dynamicInit := _, isConstructorFn := _ } :=
    (reads_str _).bind ((reads_str _).bind ((reads_u32 _).bind ((reads_u8 _).bind
      ((reads_strs _).bind (reads_strs _).last))))
  obtain ⟨h₀, h₁⟩ := flags_bits e.dynamicInit e.isConstructorFn
  rwa [h₀, h₁] at hread

theorem reads_functionSummary (e : FunctionSummaryEntry) :
    Reads decodeFunctionSummary (encodeFunctionSummary e) e := by
  have hread : Reads decodeFunctionSummary (encodeFunctionSummary e)
      { e with isNoexcept := _, hasUncaughtThrow := _ } :=
    (reads_str _).bind ((reads_str _).bind ((reads_u32 _).bind ((reads_u8 _).bind
      ((reads_strs _).bind ((reads_strs _).bind (reads_strs _).last)))))
  obtain ⟨h₀, h₁⟩ := flags_bits e.isNoexcept e.hasUncaughtThrow
  rwa [h₀, h₁] at hread

theorem reads_headerStatic (e : HeaderStaticEntry) :
    Reads decodeHeaderStatic (encodeHeaderStatic e) e :=
  (reads_str _).bind ((reads_str _).bind ((reads_u32 _).bind ((reads_bool _).bind
    (reads_strs _).last)))

theorem reads_exceptionSpec (e : ExceptionSpecEntry) :
    Reads decodeExceptionSpec (encodeExceptionSpec e) e :=
  (reads_str _).bind ((reads_str _).bind ((reads_bool _).bind ((reads_str _).bind
    (reads_u32 _).last)))

/-- **A decoded index payload is the encoded one.** -/
theorem reads_indexPayload (p : AnnealIndexPayload) :
    Reads decodeIndexPayload (encodeIndexPayload p) p :=
  (reads_list reads_overload (fun _ => putStr_append_pos _ _) _).bind
    ((reads_list reads_guide (fun _ => putStr_append_pos _ _) _).bind
    ((reads_list reads_coverage (fun _ => putStr_append_pos _ _) _).bind
    ((reads_list reads_stringPair (fun _ => putStr_append_pos _ _) _).bind
    ((reads_list reads_stringPair (fun _ => putStr_append_pos _ _) _).bind
    ((reads_list reads_stringPair (fun _ => putStr_append_pos _ _) _).bind
    ((reads_list reads_odr (fun _ => putStr_append_pos _ _) _).bind
    ((reads_list reads_specialization (fun _ => putStr_append_pos _ _) _).bind
    ((reads_list reads_defaultArg (fun _ => putStr_append_pos _ _) _).bind
    ((reads_list reads_staticInit (fun _ => putStr_append_pos _ _) _).bind
    ((reads_list reads_functionSummary (fun _ => putStr_append_pos _ _) _).bind
    ((reads_list reads_headerStatic (fun _ => putStr_append_pos _ _) _).bind
    (reads_list reads_exceptionSpec (fun _ => putStr_append_pos _ _) _).last)))))))))))

theorem reads_diagnostic (d : Diagnostic) : Reads decodeDiagnostic (encodeDiagnostic d) d := by
  have hread : Reads decodeDiagnostic (encodeDiagnostic d) { d with kind := _ } :=
    (reads_u32 _).bind ((reads_str _).bind ((reads_str _).bind ((reads_str _).bind
      ((reads_str _).bind ((reads_str _).bind (reads_str _).last)))))
  rwa [Diagnostic.Kind.ofU32_toU32] at hread

/-- **Decoded diagnostics are the encoded ones.** -/
theorem reads_diagnostics (diags : List Diagnostic) :
    Reads decodeDiagnostics (encodeDiagnostics diags) diags :=
  reads_list reads_diagnostic (fun d => by simp [encodeDiagnostic, putU32]) diags

end Checkpoint
end Vycor
