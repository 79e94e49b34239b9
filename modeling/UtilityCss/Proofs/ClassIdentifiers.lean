import UtilityCss.Markup
import UtilityCss.Proofs.CssReading
import UtilityCss.Proofs.SelectorNames
import UtilityCss.Proofs.TokenMarks

/-!
# Class names as identifiers

The characters that are escaped in a selector are, but for the control characters, just those that cannot stand in an
identifier bare. So the escaped name of a class is read as one identifier, which says the name, unless a control
character is in it: there the identifier ends.
-/

namespace UtilityCss

namespace Selector

open Css

/-! ## The characters of a name -/

theorem not_isLineBreak {c : Char} (h : isSignificant c = true) : isLineBreak c = false :=
  Bool.not_eq_true' _ |>.mp (of_isSignificant (!isLineBreak ·) (by decide) h)

theorem not_isControl {c : Char} (h : isSignificant c = true) : isControl c = false :=
  Bool.not_eq_true' _ |>.mp (of_isSignificant (!isControl ·) (by decide) h)

/-- What is neither escaped nor a control character can stand in an identifier, and nothing else can. -/
theorem isNameChar_eq (c : Char) : isNameChar c = (!isSignificant c && !isControl c) := by
  by_cases hc : c.toNat < 0x80
  · have hascii : ∀ n < 0x80, isNameChar (Char.ofNat n) =
        (!isSignificant (Char.ofNat n) && !isControl (Char.ofNat n)) := by
      decide +kernel
    simpa only [Char.ofNat_toNat] using hascii c.toNat hc
  · have hname : isNameChar c = true := by simp [isNameChar, isNameStart, Nat.not_lt.mp hc]
    have hcontrol : isControl c = false := by
      simp only [isControl, Bool.or_eq_false_iff, decide_eq_false_iff_not]
      omega
    have hplain : isSignificant c = false :=
      Bool.eq_false_iff.mpr fun hs => hc (of_decide_eq_true (of_isSignificant (·.toNat < 0x80) (by decide) hs))
    rw [hname, hcontrol, hplain]
    rfl

theorem escapeChar_of_not_significant {c : Char} (h : isSignificant c = false) : escapeChar c = [c] := by
  simp [escapeChar, h]

/-! ## Reading a name -/

/-- An escaped name is read up to the first character behind it that belongs to no identifier. -/
theorem readName_escaped {s : List Char} (hs : ControlFree s) {c : Char} (hc : isNameChar c = false)
    (hb : c ≠ '\\') (rest : List Char) :
    Css.readName (s.flatMap escapeChar ++ c :: rest) = (s, c :: rest) := by
  induction s with
  | nil => exact readName_stop hc hb rest
  | cons d s ih =>
      obtain ⟨hd, hs⟩ := List.forall_mem_cons.mp hs
      rw [List.flatMap_cons, List.append_assoc]
      cases hsig : isSignificant d with
      | true =>
          have hescape : escapeChar d = ['\\', d] := by simp [escapeChar, hsig]
          rw [hescape, List.cons_append, List.singleton_append,
            Css.readName_escape (not_isLineBreak hsig) (not_isHexDigit hsig), ih hs]
      | false =>
          have hname : isNameChar d = true := by rw [isNameChar_eq, hsig, hd]; rfl
          rw [escapeChar_of_not_significant hsig, List.singleton_append, readName_cons hname, ih hs]

/-- A control character ends the identifier, for it is not escaped. -/
theorem readName_escaped_iff (s : List Char) {c : Char} (hc : isNameChar c = false) (hb : c ≠ '\\') (rest : List Char) :
    Css.readName (s.flatMap escapeChar ++ c :: rest) = (s, c :: rest) ↔ ControlFree s := by
  refine ⟨fun hread => ?_, fun hs => readName_escaped hs hc hb rest⟩
  cases hfind : s.find? isControl with
  | none => exact fun d hd => by simpa using List.find?_eq_none.mp hfind d hd
  | some d =>
      -- what stands in front of the first control character is all that is read
      obtain ⟨hd, before, after, rfl, hbefore⟩ := List.find?_eq_some_iff_append.mp hfind
      have hplain : ControlFree before := fun e he => by simpa using hbefore e he
      have hname : isNameChar d = false := by simp [isNameChar_eq, hd]
      have hsig : isSignificant d = false := Bool.eq_false_iff.mpr fun h => by simp [not_isControl h] at hd
      have hdb : d ≠ '\\' := by
        rintro rfl
        revert hd
        decide
      have hstop := readName_escaped hplain hname hdb (after.flatMap escapeChar ++ c :: rest)
      rw [List.flatMap_append, List.flatMap_cons, escapeChar_of_not_significant hsig, List.append_assoc,
        List.append_assoc, List.singleton_append, hstop] at hread
      have hlen := congrArg List.length (congrArg Prod.fst hread)
      simp at hlen

/-! ## The front of a class -/

theorem isAlpha_mark (m : Mark) : ∃ c rest, m.text.toList = c :: rest ∧ c.isAlpha = true := by
  cases m with
  | breakpoint b => cases b <;> exact ⟨_, _, rfl, by decide⟩
  | state s => cases s <;> exact ⟨_, _, rfl, by decide⟩
  | dark => exact ⟨_, _, rfl, by decide⟩

theorem isAlpha_base {base : String} (h : UtilityCss.isEligible base = true) :
    ∃ c rest, base.toList = c :: rest ∧ c.isAlpha = true := by
  simp only [UtilityCss.isEligible, Text.startsWith, Bool.or_eq_true, Option.isSome_iff_exists, Text.rest?_eq_some] at h
  rcases h with ⟨rest, hrest⟩ | ⟨rest, hrest⟩
  · exact ⟨'i', _, hrest, by decide⟩
  · exact ⟨'i', _, hrest, by decide⟩

/-- The marks and the bases of classes begin with letters. -/
theorem isAlpha_token {token : String} (h : UtilityCss.isEligible (baseOf token) = true) :
    ∃ c rest, token.toList = c :: rest ∧ c.isAlpha = true := by
  obtain ⟨ms, base, hparts⟩ := Token.exists_parts token
  rw [baseOf, hparts.parse] at h
  rw [hparts.eq, Token.write, String.toList_append, String.toList_ofList]
  cases ms with
  | nil => exact isAlpha_base h
  | cons m ms =>
      obtain ⟨c, rest, hm, hc⟩ := isAlpha_mark m
      refine ⟨c, rest ++ (Mark.texts ms ++ base.toList), ?_, hc⟩
      rw [Mark.texts_cons, hm, List.append_assoc, List.cons_append]

theorem startsName_of_isAlpha {c : Char} (h : c.isAlpha = true) (rest : List Char) : startsName (c :: rest) = true := by
  have hstart : isNameStart c = true := by simp [isNameStart, h]
  unfold startsName
  split
  all_goals simp_all

theorem identifier?_escape {token : String} (h : UtilityCss.isEligible (baseOf token) = true) (rest : List Char) :
    identifier? ((escape token).toList ++ rest) = some (Css.readName ((escape token).toList ++ rest)) := by
  obtain ⟨c, tail, htoken, hc⟩ := isAlpha_token h
  have hname : isNameChar c = true := by simp [isNameChar, isNameStart, hc]
  rw [isNameChar_eq, Bool.and_eq_true, Bool.not_eq_true'] at hname
  have hescape : (escape token).toList = c :: tail.flatMap escapeChar := by
    rw [escape, String.toList_ofList, htoken, List.flatMap_cons, escapeChar_of_not_significant hname.1]
    rfl
  rw [identifier?, hescape, List.cons_append, startsName_of_isAlpha hc, if_pos rfl]

/-! ## The theorem -/

/-- The escaped name of a class, with what follows it in a selector, is read as one identifier that says the name,
exactly if no control character is in the name. -/
theorem identifier_of_class_iff {text token : String} (h : token ∈ Markup.classes text) {c : Char} (hc : c = ' ' ∨ c = ':')
    (rest : List Char) :
    identifier? ((escape token).toList ++ c :: rest) = some (token.toList, c :: rest) ↔ ControlFree token.toList := by
  have heligible : UtilityCss.isEligible (baseOf token) = true :=
    (List.mem_filter.mp (List.mem_eraseDups.mp h)).2
  rw [identifier?_escape heligible, Option.some.injEq, escape, String.toList_ofList]
  rcases hc with rfl | rfl
  · exact readName_escaped_iff token.toList (by decide) (by decide) rest
  · exact readName_escaped_iff token.toList (by decide) (by decide) rest

/-- A class with a mark, brackets, a backslash, and a letter outside of ASCII. -/
theorem identifier_of_class_brackets :
    let text := "<i class=\"md:is-w-[é\\1/2]\">"
    let token := "md:is-w-[é\\1/2]"
    token ∈ Markup.classes text ∧ (' ' = ' ' ∨ ' ' = ':') ∧
      identifier? ((escape token).toList ++ " \x7b".toList) = some (token.toList, " \x7b".toList) := by
  intro text token
  have hmem : token ∈ Markup.classes text := by decide +kernel
  exact ⟨hmem, Or.inl rfl, (identifier_of_class_iff hmem (Or.inl rfl) ['\x7b']).mpr (by decide)⟩

/-- A control character is no blank, so a class can hold one, and the identifier ends in front of it. -/
theorem identifier_of_class_control :
    let text := "<i class=\"is-p-[1px\x01]\">"
    let token := "is-p-[1px\x01]"
    token ∈ Markup.classes text ∧
      identifier? ((escape token).toList ++ " \x7b".toList) = some ("is-p-[1px".toList, "\x01\\] \x7b".toList) := by
  decide +kernel

end Selector
end UtilityCss
