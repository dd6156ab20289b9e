/-
Spellings of a type.

A type is spelled as words and marks, with blanks wherever one likes, but between two words.  All
spellings come to the same string, that of the words and marks in a row without `const` and
`volatile`: these are erased where they stand as words of their own, and a longer word that has
one of them in it is left alone.  Reference marks at the end go too, if nothing stands behind
them.

The scan skips over a keyword that it does not erase, so a word is gone through in steps of
different lengths; within a word nothing is erased, whatever the step, since an identifier
character stands before.
-/
import Mathlib.Data.List.Infix
import Vycor.Model.TypeNames

namespace Vycor

/-! ### Tokens -/

/-- A word, or a mark of punctuation. -/
inductive TypeToken
  | word (w : Str)
  | mark (c : UInt8)
deriving DecidableEq

namespace TypeToken

/-- The token as it is typed. -/
def text : TypeToken → Str
  | word w => w
  | mark c => [c]

/-- A qualifier that is left out. -/
def isQualifier (t : TypeToken) : Bool := t = word (str "const") || t = word (str "volatile")

end TypeToken

/-- The text spells the tokens. -/
inductive SpelledAs : List TypeToken → Str → Prop
  | blanks {b : Str} : (∀ c ∈ b, isTypeBlank c = true) → SpelledAs [] b
  | mark {b : Str} {c : UInt8} {rest : List TypeToken} {s : Str} :
      (∀ c ∈ b, isTypeBlank c = true) → isIdent c = false → isTypeBlank c = false →
      SpelledAs rest s → SpelledAs (.mark c :: rest) (b ++ c :: s)
  | word {b w : Str} {rest : List TypeToken} {s : Str} :
      (∀ c ∈ b, isTypeBlank c = true) → w ≠ [] → (∀ c ∈ w, isIdent c = true) →
      SpelledAs rest s → isBoundary s.head? = true → SpelledAs (.word w :: rest) (b ++ (w ++ s))

theorem blank_not_ident {c : UInt8} (h : isTypeBlank c = true) : isIdent c = false := by
  simp only [isTypeBlank, Bool.or_eq_true, decide_eq_true_eq] at h
  rcases h with ((rfl | rfl) | rfl) | rfl <;> decide

theorem ident_not_blank {c : UInt8} (h : isIdent c = true) : isTypeBlank c = false := by
  by_contra hc
  rw [blank_not_ident (by simpa using hc)] at h
  exact Bool.false_ne_true h

theorem SpelledAs.prepend {tokens : List TypeToken} {s b : Str} (h : SpelledAs tokens s)
    (hb : ∀ c ∈ b, isTypeBlank c = true) : SpelledAs tokens (b ++ s) := by
  have hboth : ∀ {b' : Str}, (∀ c ∈ b', isTypeBlank c = true) →
      ∀ c ∈ b ++ b', isTypeBlank c = true := by
    intro b' hb' c hc
    rcases List.mem_append.mp hc with hc | hc
    · exact hb c hc
    · exact hb' c hc
  cases h with
  | blanks hb' => exact .blanks (hboth hb')
  | mark hb' hident hblank hrest =>
      rw [← List.append_assoc]
      exact .mark (hboth hb') hident hblank hrest
  | word hb' hw hident hrest hend =>
      rw [← List.append_assoc]
      exact .word (hboth hb') hw hident hrest hend

/-- Without its blanks a text is its tokens in a row. -/
theorem SpelledAs.filter_blanks {tokens : List TypeToken} {s : Str} (h : SpelledAs tokens s) :
    s.filter (!isTypeBlank ·) = tokens.flatMap TypeToken.text := by
  have hskip : ∀ {b : Str}, (∀ c ∈ b, isTypeBlank c = true) → b.filter (!isTypeBlank ·) = [] :=
    fun hb => List.filter_eq_nil_iff.mpr fun c hc => by simp [hb c hc]
  induction h with
  | blanks hb => exact hskip hb
  | mark hb _ hblank _ ih =>
      rw [List.filter_append, hskip hb, List.filter_cons_of_pos (by simp [hblank]), ih]
      rfl
  | word hb _ hident _ _ ih =>
      rw [List.filter_append, List.filter_append, hskip hb, ih,
        List.filter_eq_self.mpr fun c hc => by simp [ident_not_blank (hident c hc)]]
      rfl

/-- The last character is that of the last token, or a blank. -/
theorem SpelledAs.getLast_mark {tokens : List TypeToken} {s : Str} (h : SpelledAs tokens s) {c : UInt8}
    (hident : isIdent c = false) (hblank : isTypeBlank c = false) (hlast : s.getLast? = some c) :
    tokens.getLast? = some (.mark c) := by
  -- a text without a last character spells nothing
  have hnothing : ∀ {rest : List TypeToken} {s : Str}, SpelledAs rest s → s.getLast? = none →
      rest = [] := by
    intro rest s hrest hnone
    rw [List.getLast?_eq_none_iff] at hnone
    cases hrest with
    | blanks => rfl
    | mark => exact absurd hnone (by simp)
    | word _ hw => exact absurd hnone (by simp [hw])
  induction h with
  | blanks hb =>
      rw [hb c (List.mem_of_getLast? hlast)] at hblank
      exact absurd hblank (by decide)
  | @mark b c' rest s hb _ _ hrest ih =>
      rw [List.getLast?_append, List.getLast?_cons] at hlast
      cases hs : s.getLast? with
      | none =>
          rw [hs] at hlast
          obtain rfl : c' = c := Option.some.inj hlast
          rw [hnothing hrest hs]
          rfl
      | some x =>
          rw [hs] at hlast
          rw [List.getLast?_cons, ih (hs.trans hlast)]
          rfl
  | @word b w rest s hb hw hword hrest _ ih =>
      rw [List.getLast?_append, List.getLast?_append] at hlast
      cases hs : s.getLast? with
      | none =>
          rw [hs] at hlast
          have hend : ∀ x, w.getLast? = some x → isIdent x = true := fun x hx =>
            hword x (List.mem_of_getLast? hx)
          cases hwlast : w.getLast? with
          | none => exact absurd (List.getLast?_eq_none_iff.mp hwlast) hw
          | some x =>
              rw [hwlast] at hlast
              obtain rfl : x = c := Option.some.inj hlast
              rw [hend x hwlast] at hident
              exact absurd hident (by decide)
      | some x =>
          rw [hs] at hlast
          rw [List.getLast?_cons, ih (hs.trans hlast)]
          rfl

/-! ### Erasing a keyword

A keyword goes where no identifier goes on at either end. Between tokens that is
so at every token, and within a word nowhere.
-/

section Strip

variable {kw : Str} (hkw : kw ≠ []) (hident : ∀ c ∈ kw, isIdent c = true)
include hkw hident

theorem not_prefix_of_boundary {rest : Str} (hrest : isBoundary rest.head? = true) :
    kw.isPrefixOf rest = false := by
  obtain ⟨c, kw', rfl⟩ := List.exists_cons_of_ne_nil hkw
  cases rest with
  | nil => rfl
  | cons c' rest' =>
      have hc := hident c List.mem_cons_self
      rw [Bool.eq_false_iff]
      intro hwithin
      obtain ⟨rfl, -⟩ : c = c' ∧ kw' <+: rest' := by simpa using hwithin
      simp [isBoundary, hc] at hrest

/-- Where no identifier goes on, the character before makes no difference. -/
theorem stripKeyword_boundary {rest : Str} (hrest : isBoundary rest.head? = true)
    (before before' : Option UInt8) :
    stripKeyword kw before rest = stripKeyword kw before' rest := by
  cases rest with
  | nil => rw [stripKeyword, stripKeyword]
  | cons c rest' =>
      rw [stripKeyword, stripKeyword, not_prefix_of_boundary hkw hident hrest]
      rfl

/-- What is not an identifier is left alone. -/
theorem stripKeyword_other {b : Str} (hb : ∀ c ∈ b, isIdent c = false) (before : Option UInt8)
    (rest : Str) :
    stripKeyword kw before (b ++ rest) = b ++ stripKeyword kw (b.getLast?.or before) rest := by
  induction b generalizing before with
  | nil => rfl
  | cons c b' ih =>
      have hc : isBoundary (c :: (b' ++ rest)).head? = true := by
        simp [isBoundary, hb c List.mem_cons_self]
      rw [List.cons_append, stripKeyword, not_prefix_of_boundary hkw hident hc]
      simp only [Bool.false_eq_true, if_false]
      rw [ih (fun x hx => hb x (List.mem_cons_of_mem _ hx)), List.getLast?_cons]
      cases b'.getLast? <;> rfl

omit hkw in
/-- A keyword at a word does not reach beyond it. -/
theorem prefix_of_word {w rest : Str} (hrest : isBoundary rest.head? = true)
    (hwithin : kw.isPrefixOf (w ++ rest) = true) : ∃ t, kw ++ t = w := by
  have hkeyword := List.isPrefixOf_iff_prefix.mp hwithin
  rcases List.prefix_or_prefix_of_prefix hkeyword (List.prefix_append w rest) with h | ⟨u, hu⟩
  · exact h
  · cases u with
    | nil => exact ⟨[], by rw [List.append_nil, ← hu, List.append_nil]⟩
    | cons c u =>
        rw [← hu, List.prefix_append_right_inj] at hkeyword
        have hout : (c :: u).isPrefixOf rest = false := not_prefix_of_boundary
          (List.cons_ne_nil c u) (fun x hx => hident x (hu ▸ List.mem_append_right w hx)) hrest
        rw [List.isPrefixOf_iff_prefix.mpr hkeyword] at hout
        exact absurd hout (by decide)

theorem boundary_getLast : isBoundary kw.getLast? = false := by
  rw [List.getLast?_eq_some_getLast hkw]
  simp [isBoundary, hident _ (List.getLast_mem hkw)]

/-- The scan at a keyword. -/
theorem stripKeyword_keyword (before : Option UInt8) (tail : Str) :
    stripKeyword kw before (kw ++ tail)
      = if isBoundary before && isBoundary tail.head? then stripKeyword kw before tail
        else kw ++ stripKeyword kw kw.getLast? tail := by
  obtain ⟨c, kw', rfl⟩ := List.exists_cons_of_ne_nil hkw
  have hwithin : (c :: kw').isPrefixOf (c :: (kw' ++ tail)) = true :=
    List.isPrefixOf_iff_prefix.mpr (List.prefix_append (c :: kw') tail)
  rw [List.cons_append, stripKeyword, if_pos hwithin]
  simp only [List.length_cons, Nat.add_sub_cancel, List.drop_left]

/-- Within a word nothing is erased. -/
theorem stripKeyword_within (n : Nat) {w : Str} (hn : w.length ≤ n)
    (hw : ∀ c ∈ w, isIdent c = true) {rest : Str} (hrest : isBoundary rest.head? = true)
    {before : Option UInt8} (hbefore : isBoundary before = false) (before' : Option UInt8) :
    stripKeyword kw before (w ++ rest) = w ++ stripKeyword kw before' rest := by
  induction n generalizing w before with
  | zero =>
      obtain rfl := List.length_eq_zero_iff.mp (Nat.le_zero.mp hn)
      exact stripKeyword_boundary hkw hident hrest before before'
  | succ n ih =>
      cases w with
      | nil => exact stripKeyword_boundary hkw hident hrest before before'
      | cons c w' =>
          by_cases hwithin : kw.isPrefixOf (c :: w' ++ rest) = true
          · obtain ⟨t, ht⟩ := prefix_of_word hident hrest hwithin
            have hshort : t.length ≤ n := by
              have hlength := congrArg List.length ht
              have hsome := List.length_pos_of_ne_nil hkw
              simp only [List.length_append] at hlength
              omega
            rw [← ht, List.append_assoc, stripKeyword_keyword hkw hident, hbefore, Bool.false_and,
              if_neg Bool.false_ne_true, List.append_assoc]
            refine congrArg (kw ++ ·) (ih hshort (fun x hx => hw x ?_)
              (boundary_getLast hkw hident))
            rw [← ht]
            exact List.mem_append_right kw hx
          · rw [List.cons_append] at hwithin
            rw [List.cons_append, stripKeyword, if_neg hwithin, List.cons_append]
            refine congrArg (c :: ·) (ih (Nat.le_of_succ_le_succ hn)
              (fun x hx => hw x (List.mem_cons_of_mem c hx)) ?_)
            simp [isBoundary, hw c List.mem_cons_self]

/-- **A word goes if it is the keyword**, and stays else. -/
theorem stripKeyword_word {w rest : Str} (hne : w ≠ []) (hw : ∀ c ∈ w, isIdent c = true)
    (hrest : isBoundary rest.head? = true) {before : Option UInt8}
    (hbefore : isBoundary before = true) :
    stripKeyword kw before (w ++ rest)
      = (if w = kw then [] else w) ++ stripKeyword kw before rest := by
  by_cases hsame : w = kw
  · rw [hsame, stripKeyword_keyword hkw hident, hbefore, hrest]
    simp
  · rw [if_neg hsame]
    by_cases hwithin : kw.isPrefixOf (w ++ rest) = true
    · obtain ⟨t, rfl⟩ := prefix_of_word hident hrest hwithin
      have ht : t ≠ [] := by
        rintro rfl
        exact hsame (List.append_nil kw)
      have hgoes : isBoundary (t ++ rest).head? = false := by
        obtain ⟨c, t', rfl⟩ := List.exists_cons_of_ne_nil ht
        have hc := hw c (List.mem_append_right kw List.mem_cons_self)
        simp [isBoundary, hc]
      rw [List.append_assoc, stripKeyword_keyword hkw hident, hgoes, Bool.and_false,
        if_neg Bool.false_ne_true, List.append_assoc]
      refine congrArg (kw ++ ·) (stripKeyword_within hkw hident t.length (Nat.le_refl _)
        (fun c hc => hw c (List.mem_append_right kw hc)) hrest (boundary_getLast hkw hident) before)
    · obtain ⟨c, w', rfl⟩ := List.exists_cons_of_ne_nil hne
      rw [List.cons_append] at hwithin
      rw [List.cons_append, stripKeyword, if_neg hwithin, List.cons_append]
      refine congrArg (c :: ·) (stripKeyword_within hkw hident w'.length (Nat.le_refl _)
        (fun x hx => hw x (List.mem_cons_of_mem c hx)) hrest ?_ before)
      simp [isBoundary, hw c List.mem_cons_self]

/-- **Erasing a keyword erases its tokens.** -/
theorem stripKeyword_spells {tokens : List TypeToken} {s tail : Str} (h : SpelledAs tokens s)
    (htail : ∀ c ∈ tail, isIdent c = false) (before : Option UInt8)
    (hbefore : isBoundary before = true ∨ isBoundary s.head? = true) :
    ∃ s', SpelledAs (tokens.filter (· ≠ .word kw)) s' ∧
      (isBoundary s.head? = true → isBoundary s'.head? = true) ∧
      stripKeyword kw before (s ++ tail) = s' ++ tail := by
  induction h generalizing before with
  | @blanks b hb =>
      refine ⟨b, .blanks hb, id, ?_⟩
      have hother : ∀ c ∈ b ++ tail, isIdent c = false := by
        intro c hc
        rcases List.mem_append.mp hc with hc | hc
        · exact blank_not_ident (hb c hc)
        · exact htail c hc
      have hscan := stripKeyword_other hkw hident hother before []
      rwa [List.append_nil, stripKeyword, List.append_nil] at hscan
  | @mark b c rest s hb hident' hblank _ ih =>
      obtain ⟨s', hs', -, hscan⟩ := ih (some c) (Or.inl (by simp [isBoundary, hident']))
      refine ⟨b ++ c :: s', ?_, ?_, ?_⟩
      · rw [List.filter_cons_of_pos (by simp)]
        exact .mark hb hident' hblank hs'
      · cases b <;> exact id
      · have hother : ∀ x ∈ b ++ [c], isIdent x = false := by
          intro x hx
          rcases List.mem_append.mp hx with hx | hx
          · exact blank_not_ident (hb x hx)
          · exact List.mem_singleton.mp hx ▸ hident'
        have hsplit : ∀ t : Str, b ++ c :: t = (b ++ [c]) ++ t := fun t => by simp
        have hrun := stripKeyword_other hkw hident hother before (s ++ tail)
        rw [List.getLast?_concat, Option.some_or, hscan] at hrun
        rw [hsplit s, hsplit s', List.append_assoc, hrun, List.append_assoc _ s' tail]
  | @word b w rest s hb hw hword _ hend ih =>
      have hblanks : ∀ c ∈ b, isIdent c = false := fun c hc => blank_not_ident (hb c hc)
      have hnext : isBoundary (b.getLast?.or before) = true := by
        cases hlast : b.getLast? with
        | some c => simp [isBoundary, hblanks c (List.mem_of_getLast? hlast)]
        | none =>
            obtain rfl := List.getLast?_eq_none_iff.mp hlast
            refine hbefore.resolve_right fun hhead => ?_
            obtain ⟨c, w', rfl⟩ := List.exists_cons_of_ne_nil hw
            simp [isBoundary, hword c List.mem_cons_self] at hhead
      have hrest : isBoundary (s ++ tail).head? = true := by
        cases s with
        | cons c s' => exact hend
        | nil =>
            cases tail with
            | nil => rfl
            | cons c tail' => simp [isBoundary, htail c List.mem_cons_self]
      obtain ⟨s', hs', hhead, hscan⟩ := ih (b.getLast?.or before) (Or.inr hend)
      have hrun : stripKeyword kw before (b ++ (w ++ s) ++ tail)
          = b ++ ((if w = kw then [] else w) ++ s') ++ tail := by
        rw [List.append_assoc, List.append_assoc, stripKeyword_other hkw hident hblanks,
          stripKeyword_word hkw hident hw hword hrest hnext, hscan]
        simp only [List.append_assoc]
      by_cases hsame : w = kw
      · rw [if_pos hsame] at hrun
        refine ⟨b ++ s', ?_, ?_, hrun⟩
        · rw [List.filter_cons_of_neg (by simp [hsame])]
          exact hs'.prepend hb
        · cases b with
          | cons c b' => exact id
          | nil => exact fun _ => hhead hend
      · rw [if_neg hsame] at hrun
        refine ⟨b ++ (w ++ s'), ?_, ?_, hrun⟩
        · rw [List.filter_cons_of_pos (by simp [hsame])]
          exact .word hb hw hword hs' (hhead hend)
        · cases b with
          | cons c b' => exact id
          | nil =>
              obtain ⟨c, w', rfl⟩ := List.exists_cons_of_ne_nil hw
              exact id

end Strip

/-! ### Spellings of a type -/

/-- **Every spelling comes to the same string**: blanks, `const`, `volatile` and reference marks
at the end make no difference, and nothing else is left out. -/
theorem normalize_spelled {tokens : List TypeToken} {body : Str} (h : SpelledAs tokens body)
    (hlast : (tokens.filter (!·.isQualifier)).getLast? ≠ some (.mark 38)) (refs : Nat) :
    normalizeTypeForMatching (body ++ List.replicate refs 38)
      = (tokens.filter (!·.isQualifier)).flatMap TypeToken.text := by
  have htail : ∀ c ∈ List.replicate refs (38 : UInt8), isIdent c = false :=
    fun c hc => List.eq_of_mem_replicate hc ▸ by decide
  have hkeyword : ∀ kw ∈ [str "const", str "volatile"], kw ≠ [] ∧ ∀ c ∈ kw, isIdent c = true := by
    decide +kernel
  obtain ⟨hne, hident⟩ := hkeyword (str "const") (by decide)
  obtain ⟨hne', hident'⟩ := hkeyword (str "volatile") (by decide)
  obtain ⟨s, hs, -, hconst⟩ := stripKeyword_spells hne hident h htail none (Or.inl rfl)
  obtain ⟨s', hs', -, hvolatile⟩ := stripKeyword_spells hne' hident' hs htail none (Or.inl rfl)
  have htokens : (tokens.filter (· ≠ .word (str "const"))).filter (· ≠ .word (str "volatile"))
      = tokens.filter (!·.isQualifier) := by
    rw [List.filter_filter]
    refine List.filter_congr fun t _ => ?_
    simp [TypeToken.isQualifier, Bool.and_comm]
  rw [htokens] at hs'
  -- the marks at the end go, and what stands before them is none
  have hdrop : ∀ n : Nat, (s' ++ List.replicate n 38).rdropWhile (· = 38)
      = s'.rdropWhile (· = 38) := by
    intro n
    induction n with
    | zero => rw [List.replicate_zero, List.append_nil]
    | succ n ih =>
        rw [List.replicate_succ', ← List.append_assoc, List.rdropWhile_concat_pos _ _ _ (by simp),
          ih]
  have hstop : s'.rdropWhile (· = 38) = s' := by
    refine List.rdropWhile_eq_self_iff.mpr fun hne hmark => hlast ?_
    refine hs'.getLast_mark (by decide) (by decide) ?_
    rw [List.getLast?_eq_some_getLast hne, of_decide_eq_true hmark]
  unfold normalizeTypeForMatching
  rw [hconst, hvolatile]
  dsimp only
  rw [hdrop, hstop, hs'.filter_blanks]

theorem normalize_spelled_const :
    normalizeTypeForMatching (str "const unsigned  constexpr_t* &&")
      = str "unsignedconstexpr_t*" := by
  have hend : SpelledAs [] (str " ") := .blanks (by decide +kernel)
  have hstar : SpelledAs [.mark 42] (str "* ") :=
    .mark (b := []) (by decide +kernel) (by decide +kernel) (by decide +kernel) hend
  have hname : SpelledAs [.word (str "constexpr_t"), .mark 42] (str "  constexpr_t* ") :=
    .word (b := [32, 32]) (w := str "constexpr_t") (by decide +kernel) (by decide +kernel)
      (by decide +kernel) hstar rfl
  have hunsigned : SpelledAs [.word (str "unsigned"), .word (str "constexpr_t"), .mark 42]
      (str " unsigned  constexpr_t* ") :=
    .word (b := [32]) (w := str "unsigned") (by decide +kernel) (by decide +kernel)
      (by decide +kernel) hname rfl
  have hconst : SpelledAs [.word (str "const"), .word (str "unsigned"), .word (str "constexpr_t"),
      .mark 42] (str "const unsigned  constexpr_t* ") :=
    .word (b := []) (w := str "const") (by decide +kernel) (by decide +kernel)
      (by decide +kernel) hunsigned rfl
  exact normalize_spelled hconst (by decide +kernel) 2

end Vycor
