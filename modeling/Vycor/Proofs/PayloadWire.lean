/-
Index payloads of any size.

A payload decodes as long as each of its strings and each of its counts fits the 32 bits that
are written for it, however many bytes it takes in all.
-/
import Vycor.Proofs.CheckpointWire

namespace Vycor

open Wire

/-! ### What fits -/

/-- The length of the string fits its 32-bit field. -/
def ShortStr (s : Str) : Prop := s.length < 2 ^ 32

instance (s : Str) : Decidable (ShortStr s) := inferInstanceAs (Decidable (s.length < 2 ^ 32))

/-- A count that fits, of elements that do. -/
def Counted {α : Type} (fits : α → Prop) (l : List α) : Prop :=
  l.length < 2 ^ 32 ∧ ∀ e ∈ l, fits e

/-- Both strings fit. -/
def PairFits (p : Str × Str) : Prop := ShortStr p.1 ∧ ShortStr p.2

/-- Every length of the entry fits its field. -/
structure FunctionOverloadEntry.Fits (e : FunctionOverloadEntry) : Prop where
  qualifiedName : ShortStr e.qualifiedName
  headerPath : ShortStr e.headerPath
  paramTypes : Counted ShortStr e.paramTypes
  returnType : ShortStr e.returnType

/-- Every length of the entry fits its field. -/
structure DeductionGuideEntry.Fits (e : DeductionGuideEntry) : Prop where
  templateName : ShortStr e.templateName
  headerPath : ShortStr e.headerPath
  paramTypes : Counted ShortStr e.paramTypes
  deducedType : ShortStr e.deducedType

/-- Every length of the entry fits its field. -/
structure CoveragePropertyEntry.Fits (e : CoveragePropertyEntry) : Prop where
  qualifiedName : ShortStr e.qualifiedName
  headerPath : ShortStr e.headerPath
  enclosingClass : ShortStr e.enclosingClass
  signature : ShortStr e.signature

/-- Every length of the entry fits its field. -/
structure OdrEntry.Fits (e : OdrEntry) : Prop where
  qualifiedName : ShortStr e.qualifiedName
  signature : ShortStr e.signature
  enclosingClass : ShortStr e.enclosingClass
  filePath : ShortStr e.filePath

/-- Every length of the entry fits its field. -/
structure SpecializationEntry.Fits (e : SpecializationEntry) : Prop where
  templateName : ShortStr e.templateName
  argsString : ShortStr e.argsString
  headerPath : ShortStr e.headerPath

/-- Every length of the entry fits its field. -/
structure DefaultArgEntry.Fits (e : DefaultArgEntry) : Prop where
  qualifiedName : ShortStr e.qualifiedName
  signature : ShortStr e.signature
  paramName : ShortStr e.paramName
  defaultText : ShortStr e.defaultText
  filePath : ShortStr e.filePath

/-- Every length of the entry fits its field. -/
structure StaticInitEntry.Fits (e : StaticInitEntry) : Prop where
  qualifiedName : ShortStr e.qualifiedName
  filePath : ShortStr e.filePath
  referencedGlobals : Counted ShortStr e.referencedGlobals
  calledFunctions : Counted ShortStr e.calledFunctions

/-- Every length of the entry fits its field. -/
structure FunctionSummaryEntry.Fits (e : FunctionSummaryEntry) : Prop where
  qualifiedName : ShortStr e.qualifiedName
  filePath : ShortStr e.filePath
  calledFunctions : Counted ShortStr e.calledFunctions
  unguardedCalls : Counted ShortStr e.unguardedCalls
  referencedGlobals : Counted ShortStr e.referencedGlobals

/-- Every length of the entry fits its field. -/
structure HeaderStaticEntry.Fits (e : HeaderStaticEntry) : Prop where
  name : ShortStr e.name
  filePath : ShortStr e.filePath
  tuPaths : Counted ShortStr e.tuPaths

/-- Every length of the entry fits its field. -/
structure ExceptionSpecEntry.Fits (e : ExceptionSpecEntry) : Prop where
  qualifiedName : ShortStr e.qualifiedName
  signature : ShortStr e.signature
  filePath : ShortStr e.filePath

/-- Every count and every string length of a payload fits 32 bits. -/
structure AnnealIndexPayload.Fits (p : AnnealIndexPayload) : Prop where
  overloads : Counted FunctionOverloadEntry.Fits p.overloads
  guides : Counted DeductionGuideEntry.Fits p.guides
  coverage : Counted CoveragePropertyEntry.Fits p.coverage
  odrEntries : Counted OdrEntry.Fits p.odrEntries
  specializations : Counted SpecializationEntry.Fits p.specializations
  defaultArgs : Counted DefaultArgEntry.Fits p.defaultArgs
  staticInits : Counted StaticInitEntry.Fits p.staticInits
  functionSummaries : Counted FunctionSummaryEntry.Fits p.functionSummaries
  headerStatics : Counted HeaderStaticEntry.Fits p.headerStatics
  exceptionSpecs : Counted ExceptionSpecEntry.Fits p.exceptionSpecs
  baseEdges : Counted PairFits p.baseEdges
  ctorEdges : Counted PairFits p.ctorEdges
  convOpEdges : Counted PairFits p.convOpEdges

/-- Every length of the diagnostic fits its field. -/
structure Diagnostic.Fits (d : Diagnostic) : Prop where
  callLocation : ShortStr d.callLocation
  resolvedDecl : ShortStr d.resolvedDecl
  betterDecl : ShortStr d.betterDecl
  missingHeader : ShortStr d.missingHeader
  message : ShortStr d.message
  checkName : ShortStr d.checkName

namespace Checkpoint

/-! ### Fields -/

theorem decodes_u8 (v : UInt8) : Decodes u8 (putU8 v) v :=
  (reads_u8 v).decodes (by simp [putU8])

theorem decodes_u32 (v : UInt32) : Decodes u32 (putU32 v) v :=
  (reads_u32 v).decodes (by simp [putU32])

theorem decodes_u64 (v : UInt64) : Decodes u64 (putU64 v) v :=
  (reads_u64 v).decodes (by simp [putU64])

theorem decodes_bool (b : Bool) : Decodes readBool (putBool b) b :=
  (reads_bool b).decodes (by simp [putBool, putU8])

theorem decodes_i32 (v : Int32) : Decodes readI32 (putI32 v) v :=
  (reads_i32 v).decodes (by simp [putI32, putU32])

theorem decodes_str {s : Str} (h : ShortStr s) : Decodes readStr (putStr s) s := by
  intro rest
  have hn : (UInt32.ofNat s.length).toNat = s.length := UInt32.toNat_ofNat_of_lt' h
  have hfits : s.length ≤ (s ++ rest).length := by simp
  unfold readStr putStr
  rw [List.append_assoc, StateT.run_bind, decodes_u32 _ (s ++ rest)]
  show StateT.run (need (UInt32.ofNat s.length).toNat >>= _) _ = _
  rw [hn, StateT.run_bind, need_run, decide_eq_true hfits]
  show (List.take _ _, Reader.mk _ _) = _
  simp

theorem decodes_list {α : Type} {fits : α → Prop} {one : Read α} {put : α → Bytes}
    (hone : ∀ a, fits a → Decodes one (put a) a) {l : List α} (h : Counted fits l) :
    Decodes (readList one) (putList put l) l := by
  have hn : (UInt32.ofNat l.length).toNat = l.length := UInt32.toNat_ofNat_of_lt' h.1
  have hmany : Decodes (readMany one (UInt32.ofNat l.length).toNat) (l.flatMap put) l := by
    rw [hn]
    exact Decodes.many fun a ha => hone a (h.2 a ha)
  exact (decodes_u32 _).bind hmany

theorem decodes_strs {l : List Str} (h : Counted ShortStr l) :
    Decodes (readList readStr) (putList putStr l) l :=
  decodes_list (fun _ hs => decodes_str hs) h

/-! ### Records -/

theorem decodes_stringPair (p : Str × Str) (h : PairFits p) :
    Decodes readStringPair (putStringPair p) p :=
  (decodes_str h.1).bind (decodes_str h.2).last

theorem decodes_overload (e : FunctionOverloadEntry) (h : e.Fits) :
    Decodes decodeOverload (encodeOverload e) e :=
  (decodes_str h.qualifiedName).bind ((decodes_str h.headerPath).bind
    ((decodes_strs h.paramTypes).bind ((decodes_str h.returnType).bind (decodes_u32 _).last)))

theorem decodes_guide (e : DeductionGuideEntry) (h : e.Fits) :
    Decodes decodeGuide (encodeGuide e) e :=
  (decodes_str h.templateName).bind ((decodes_str h.headerPath).bind
    ((decodes_strs h.paramTypes).bind ((decodes_str h.deducedType).bind (decodes_u32 _).last)))

theorem decodes_coverage (e : CoveragePropertyEntry) (h : e.Fits) :
    Decodes decodeCoverage (encodeCoverage e) e := by
  have hread : Decodes decodeCoverage (encodeCoverage e)
      { e with
        isInlined := coverageFlags e &&& 0x01 != 0, isConstexpr := coverageFlags e &&& 0x02 != 0
        isDefaulted := coverageFlags e &&& 0x04 != 0, isTrivial := coverageFlags e &&& 0x08 != 0
        isVirtual := coverageFlags e &&& 0x10 != 0
        isStaticMethod := coverageFlags e &&& 0x20 != 0
        isImplicitlyInstantiable := coverageFlags e &&& 0x40 != 0 } :=
    (decodes_str h.qualifiedName).bind ((decodes_str h.headerPath).bind ((decodes_u32 _).bind
      ((decodes_str h.enclosingClass).bind ((decodes_i32 _).bind ((decodes_u8 _).bind
        ((decodes_i32 _).bind ((decodes_i32 _).bind ((decodes_i32 _).bind ((decodes_u32 _).bind
          (decodes_str h.signature).last)))))))))
  obtain ⟨h₀, h₁, h₂, h₃, h₄, h₅, h₆⟩ := coverageFlags_bits e
  rwa [h₀, h₁, h₂, h₃, h₄, h₅, h₆] at hread

theorem decodes_odr (e : OdrEntry) (h : e.Fits) : Decodes decodeOdr (encodeOdr e) e :=
  (decodes_str h.qualifiedName).bind ((decodes_str h.signature).bind ((decodes_bool _).bind
    ((decodes_str h.enclosingClass).bind ((decodes_str h.filePath).bind ((decodes_u32 _).bind
      (decodes_u64 _).last)))))

theorem decodes_specialization (e : SpecializationEntry) (h : e.Fits) :
    Decodes decodeSpecialization (encodeSpecialization e) e :=
  (decodes_str h.templateName).bind ((decodes_str h.argsString).bind
    ((decodes_str h.headerPath).bind (decodes_u32 _).last))

theorem decodes_defaultArg (e : DefaultArgEntry) (h : e.Fits) :
    Decodes decodeDefaultArg (encodeDefaultArg e) e :=
  (decodes_str h.qualifiedName).bind ((decodes_str h.signature).bind ((decodes_u32 _).bind
    ((decodes_str h.paramName).bind ((decodes_str h.defaultText).bind
      ((decodes_str h.filePath).bind (decodes_u32 _).last)))))

theorem decodes_staticInit (e : StaticInitEntry) (h : e.Fits) :
    Decodes decodeStaticInit (encodeStaticInit e) e := by
  have hread : Decodes decodeStaticInit (encodeStaticInit e)
      { e with dynamicInit := _, isConstructorFn := _ } :=
    (decodes_str h.qualifiedName).bind ((decodes_str h.filePath).bind ((decodes_u32 _).bind
      ((decodes_u8 _).bind ((decodes_strs h.referencedGlobals).bind
        (decodes_strs h.calledFunctions).last))))
  obtain ⟨h₀, h₁⟩ := flags_bits e.dynamicInit e.isConstructorFn
  rwa [h₀, h₁] at hread

theorem decodes_functionSummary (e : FunctionSummaryEntry) (h : e.Fits) :
    Decodes decodeFunctionSummary (encodeFunctionSummary e) e := by
  have hread : Decodes decodeFunctionSummary (encodeFunctionSummary e)
      { e with isNoexcept := _, hasUncaughtThrow := _ } :=
    (decodes_str h.qualifiedName).bind ((decodes_str h.filePath).bind ((decodes_u32 _).bind
      ((decodes_u8 _).bind ((decodes_strs h.calledFunctions).bind
        ((decodes_strs h.unguardedCalls).bind (decodes_strs h.referencedGlobals).last)))))
  obtain ⟨h₀, h₁⟩ := flags_bits e.isNoexcept e.hasUncaughtThrow
  rwa [h₀, h₁] at hread

theorem decodes_headerStatic (e : HeaderStaticEntry) (h : e.Fits) :
    Decodes decodeHeaderStatic (encodeHeaderStatic e) e :=
  (decodes_str h.name).bind ((decodes_str h.filePath).bind ((decodes_u32 _).bind
    ((decodes_bool _).bind (decodes_strs h.tuPaths).last)))

theorem decodes_exceptionSpec (e : ExceptionSpecEntry) (h : e.Fits) :
    Decodes decodeExceptionSpec (encodeExceptionSpec e) e :=
  (decodes_str h.qualifiedName).bind ((decodes_str h.signature).bind ((decodes_bool _).bind
    ((decodes_str h.filePath).bind (decodes_u32 _).last)))

/-- **A payload that fits is decoded as it was encoded**, whatever its size. -/
theorem decodes_indexPayload (p : AnnealIndexPayload) (h : p.Fits) :
    Decodes decodeIndexPayload (encodeIndexPayload p) p :=
  (decodes_list decodes_overload h.overloads).bind
    ((decodes_list decodes_guide h.guides).bind
    ((decodes_list decodes_coverage h.coverage).bind
    ((decodes_list decodes_stringPair h.baseEdges).bind
    ((decodes_list decodes_stringPair h.ctorEdges).bind
    ((decodes_list decodes_stringPair h.convOpEdges).bind
    ((decodes_list decodes_odr h.odrEntries).bind
    ((decodes_list decodes_specialization h.specializations).bind
    ((decodes_list decodes_defaultArg h.defaultArgs).bind
    ((decodes_list decodes_staticInit h.staticInits).bind
    ((decodes_list decodes_functionSummary h.functionSummaries).bind
    ((decodes_list decodes_headerStatic h.headerStatics).bind
    (decodes_list decodes_exceptionSpec h.exceptionSpecs).last)))))))))))

theorem decodes_diagnostic (d : Diagnostic) (h : d.Fits) :
    Decodes decodeDiagnostic (encodeDiagnostic d) d := by
  have hread : Decodes decodeDiagnostic (encodeDiagnostic d) { d with kind := _ } :=
    (decodes_u32 _).bind ((decodes_str h.callLocation).bind ((decodes_str h.resolvedDecl).bind
      ((decodes_str h.betterDecl).bind ((decodes_str h.missingHeader).bind
        ((decodes_str h.message).bind (decodes_str h.checkName).last)))))
  rwa [Diagnostic.Kind.ofU32_toU32] at hread

theorem decodes_diagnostics (diags : List Diagnostic) (h : Counted Diagnostic.Fits diags) :
    Decodes decodeDiagnostics (encodeDiagnostics diags) diags :=
  decodes_list decodes_diagnostic h

/-! ### Whole buffers -/

/-- **Decoding undoes encoding**: from a buffer that starts with an encoding, the value comes
back, exactly its bytes are consumed and no read overruns. -/
theorem decode_encode :
    (∀ p : AnnealIndexPayload, p.Fits → ∀ rest : Bytes,
      StateT.run decodeIndexPayload ⟨encodeIndexPayload p ++ rest, true⟩
        = (p, ⟨rest, true⟩)) ∧
    (∀ diags : List Diagnostic, Counted Diagnostic.Fits diags → ∀ rest : Bytes,
      StateT.run decodeDiagnostics ⟨encodeDiagnostics diags ++ rest, true⟩
        = (diags, ⟨rest, true⟩)) := by
  constructor
  · intro p h rest
    exact decodes_indexPayload p h rest
  · intro diags h rest
    exact decodes_diagnostics diags h rest

/-- One base edge and one guide with two parameters. -/
def sampleIndexPayload : AnnealIndexPayload :=
  { guides := [⟨[86], [104], [[105], []], [86, 60], 3⟩], baseEdges := [([68], [66])] }

theorem sampleIndexPayload_fits : sampleIndexPayload.Fits := by
  have hguide : DeductionGuideEntry.Fits ⟨[86], [104], [[105], []], [86, 60], 3⟩ :=
    ⟨by decide, by decide, ⟨by decide, by decide⟩, by decide⟩
  have hedge : PairFits ([68], [66]) := ⟨by decide, by decide⟩
  constructor <;> simp [Counted, sampleIndexPayload, hguide, hedge]

/-- The sample payload and one diagnostic, each with a byte after it. -/
theorem decode_encode_sample :
    StateT.run decodeIndexPayload ⟨encodeIndexPayload sampleIndexPayload ++ [7], true⟩
      = (sampleIndexPayload, ⟨[7], true⟩) ∧
    StateT.run decodeDiagnostics
        ⟨encodeDiagnostics [⟨.deadCodeOptimistic, [97], [], [], [104, 46], [33], [111]⟩] ++ [7],
          true⟩
      = ([⟨.deadCodeOptimistic, [97], [], [], [104, 46], [33], [111]⟩], ⟨[7], true⟩) := by
  have hd : Diagnostic.Fits ⟨.deadCodeOptimistic, [97], [], [], [104, 46], [33], [111]⟩ :=
    ⟨by decide, by decide, by decide, by decide, by decide, by decide⟩
  constructor
  · exact decode_encode.1 sampleIndexPayload sampleIndexPayload_fits [7]
  · exact decode_encode.2 _ ⟨by decide, by simp [hd]⟩ [7]

end Checkpoint

end Vycor
