import UtilityCss.Arbitrary
import UtilityCss.Proofs.CssReading
import UtilityCss.Proofs.SelectorNames

/-!
# The url of a fixed background

The value of a fixed background stands in quotes, a backslash in front of each quote in it. The backslashes of the value
itself are left as they are, so the string ends at its last quote exactly if each of them has a character to take, and
none of these is a quote.
-/

namespace UtilityCss

/-! ## Where a string ends -/

namespace Css

/-- What follows the first quote without a backslash that takes it. -/
def behindQuote? (q : Char) : List Char → Option (List Char)
  | [] => none
  | '\\' :: _ :: rest => behindQuote? q rest
  | c :: rest => if c = q then some rest else behindQuote? q rest

variable {q c : Char} {s r : List Char}

theorem behindQuote?_cons (hb : c ≠ '\\') (s : List Char) :
    behindQuote? q (c :: s) = if c = q then some s else behindQuote? q s := by
  conv_lhs => unfold behindQuote?
  split <;> simp_all

theorem behindQuote?_append (h : ∀ c ∈ s, c ≠ '\\' ∧ c ≠ q) (t : List Char) :
    behindQuote? q (s ++ t) = behindQuote? q t := by
  induction s with
  | nil => rfl
  | cons c s ih =>
      obtain ⟨hb, hq⟩ := h c List.mem_cons_self
      rw [List.cons_append, behindQuote?_cons hb, if_neg hq]
      exact ih fun d hd => h d (List.mem_cons_of_mem c hd)

theorem length_behindQuote?_lt (h : behindQuote? q s = some r) : r.length < s.length := by
  fun_induction behindQuote? q s with
  | case1 => cases h
  | case2 d rest ih =>
      have hlen := ih h
      simp only [List.length_cons]
      omega
  | case3 rest hne =>
      cases h
      simp
  | case4 c rest hne hc ih =>
      have hlen := ih h
      simp only [List.length_cons]
      omega

theorem ne_of_isHexDigit_or_isSpace (h : Text.isHexDigit c = true ∨ isSpace c = true) : c ≠ '\\' ∧ c ≠ '"' := by
  constructor
  all_goals
    rintro rfl
    revert h
    decide

/-- A string ends where it would if every backslash took one character only: the rest of a number has no quotes. -/
theorem map_snd_readString (hl : Unbroken s) :
    (readString '"' s).map Prod.snd = behindQuote? '"' s := by
  fun_induction readString '"' s with
  | case1 => rfl
  | case2 rest => rfl
  | case3 c rest hq hc =>
      rw [hl c List.mem_cons_self] at hc
      cases hc
  | case4 => rfl
  | case5 d tail hd hq hb =>
      rw [hl d (by simp)] at hd
      cases hd
  | case6 d tail hd hq hb ih =>
      obtain ⟨taken, htail, htaken⟩ := readEscape_eq d tail
      have hrest := ih fun c hc => hl c (by rw [htail]; simp [hc])
      rw [Option.map_map]
      calc (readString '"' (readEscape (d :: tail)).2).map Prod.snd
          = behindQuote? '"' (readEscape (d :: tail)).2 := hrest
        _ = behindQuote? '"' (taken ++ (readEscape (d :: tail)).2) :=
            (behindQuote?_append (fun c hc => ne_of_isHexDigit_or_isSpace (htaken c hc)) _).symm
        _ = behindQuote? '"' tail := by rw [← htail]
        _ = behindQuote? '"' ('\\' :: d :: tail) := rfl
  | case7 c rest hq hc hb ih =>
      rw [Option.map_map, behindQuote?_cons hb, if_neg hq]
      exact ih fun d hd => hl d (List.mem_cons_of_mem c hd)

end Css

namespace Arbitrary

open Selector Css

/-! ## Quoted values -/

/-- Every backslash of the text takes the character behind it, and none of them takes a quote. -/
def BackslashesPaired (s : List Char) : Prop :=
  ∀ g ∈ glyphs s, (g.escaped = true → g.char ≠ '"') ∧ (g.escaped = false → g.char ≠ '\\')

instance (s : List Char) : Decidable (BackslashesPaired s) := List.decidableBAll _ _

theorem quoteChar_of_ne {c : Char} (h : c ≠ '"') : quoteChar c = [c] := if_neg h

theorem backslashesPaired_cons {g : Glyph} {s t : List Char} (h : glyphs s = g :: glyphs t) :
    BackslashesPaired s ↔
      ((g.escaped = true → g.char ≠ '"') ∧ (g.escaped = false → g.char ≠ '\\')) ∧ BackslashesPaired t := by
  simp only [BackslashesPaired, h, List.forall_mem_cons]

theorem behindQuote?_quoted (s rest : List Char) :
    behindQuote? '"' (s.flatMap quoteChar ++ '"' :: rest) = some rest ↔ BackslashesPaired s := by
  fun_induction glyphs s with
  | case1 => simp [BackslashesPaired, glyphs, behindQuote?]
  | case2 c s ih =>
      rw [backslashesPaired_cons (g := ⟨true, c⟩) (t := s) rfl]
      by_cases hc : c = '"'
      · subst hc
        -- the backslash takes the one that is put in front of the quote, so the quote ends the string
        refine iff_of_false (fun h => ?_) fun h => h.1.1 rfl rfl
        have hearly : some (s.flatMap quoteChar ++ '"' :: rest) = some rest := h
        have hlen := congrArg List.length (Option.some.inj hearly)
        simp only [List.length_append, List.length_cons] at hlen
        omega
      · rw [← ih, List.flatMap_cons, List.flatMap_cons, quoteChar_of_ne hc, quoteChar_of_ne (by decide)]
        exact (and_iff_right ⟨fun _ => hc, fun h => absurd h.symm Bool.false_ne_true⟩).symm
  | case3 c s hne ih =>
      have hglyphs : glyphs (c :: s) = ⟨false, c⟩ :: glyphs s := glyphs.eq_3 c s hne
      rw [backslashesPaired_cons hglyphs]
      by_cases hb : c = '\\'
      · subst hb
        -- a backslash that is left over is the last character, and takes the quote at the end
        refine iff_of_false (fun h => ?_) fun h => h.1.2 rfl rfl
        cases s with
        | nil =>
            have hopen : behindQuote? '"' rest = some rest := h
            exact Nat.lt_irrefl _ (length_behindQuote?_lt hopen)
        | cons d s => exact hne d s rfl rfl
      · rw [and_iff_right ⟨fun h => absurd h Bool.false_ne_true, fun _ => hb⟩, ← ih, List.flatMap_cons]
        by_cases hq : c = '"'
        · subst hq
          rfl
        · rw [quoteChar_of_ne hq, List.singleton_append, List.cons_append, behindQuote?_cons hb, if_neg hq]

theorem unbroken_quoted {s : List Char} (h : Unbroken s) : Unbroken (s.flatMap quoteChar) := by
  intro c hc
  obtain ⟨d, hd, hcd⟩ := List.mem_flatMap.mp hc
  unfold quoteChar at hcd
  split at hcd
  · exact (by decide : Unbroken ['\\', '"']) c hcd
  · rw [List.mem_singleton.mp hcd]
    exact h d hd

/-- Without backslashes the value of the string is what was quoted. -/
theorem readString_quoted {s : List Char} (hl : Unbroken s) (hb : '\\' ∉ s) (rest : List Char) :
    readString '"' (s.flatMap quoteChar ++ '"' :: rest) = some (s, rest) := by
  induction s with
  | nil => exact readString_quote '"' rest
  | cons c s ih =>
      obtain ⟨hc, hs⟩ := List.forall_mem_cons.mp hl
      have hread := ih hs fun h => hb (List.mem_cons_of_mem c h)
      have hne : c ≠ '\\' := fun h => hb (h ▸ List.mem_cons_self)
      rw [List.flatMap_cons, List.append_assoc]
      by_cases hq : c = '"'
      · subst hq
        have hescape : readEscape ('"' :: (s.flatMap quoteChar ++ '"' :: rest)) =
            ('"', s.flatMap quoteChar ++ '"' :: rest) :=
          readEscape_of_not_hexDigit (by decide) _
        rw [quoteChar, if_pos rfl, List.cons_append, List.singleton_append, readString_escape (by decide) hc, hescape,
          hread]
        rfl
      · rw [quoteChar_of_ne hq, List.singleton_append, readString_cons hq hc hne, hread]
        rfl

/-! ## The theorem -/

/-- What stands behind `url(` in the declarations of a fixed background. -/
def backgroundUrl? (value : String) : Option (List Char) :=
  (declarations? "fixed-bg" value).bind fun ds => Text.after? "url(".toList ds.toList

theorem backgroundUrl?_eq (v : String) :
    backgroundUrl? v = some ('"' :: (v.toList.flatMap quoteChar ++ '"' :: ");".toList)) := by
  have htemplate : templates.lookup "fixed-bg" = some _ := rfl
  rw [backgroundUrl?, declarations?, htemplate, Option.map_some, Option.bind_some]
  simp only [Template.fill, List.map_cons, List.map_nil, Piece.fill, String.join, List.foldl_cons, List.foldl_nil,
    String.toList_append, String.toList_ofList]
  rfl

/-- The address of a fixed background is one string, which ends at the last quote of the declarations, exactly if no
backslash of the value takes a quote and none is left over. Without backslashes the string says what the class says. -/
theorem backgroundUrl_closes_iff {v : String} (hl : Unbroken v.toList) :
    ∃ url, backgroundUrl? v = some url ∧
      ((∃ value, string? url = some (value, ");".toList)) ↔ BackslashesPaired v.toList) ∧
      ('\\' ∉ v.toList → string? url = some (v.toList, ");".toList)) := by
  have hend : Unbroken ('"' :: ");".toList) := by decide
  have hbreaks : Unbroken (v.toList.flatMap quoteChar ++ '"' :: ");".toList) :=
    List.forall_mem_append.mpr ⟨unbroken_quoted hl, hend⟩
  refine ⟨_, backgroundUrl?_eq v, ?_, fun hb => readString_quoted hl hb _⟩
  rw [← behindQuote?_quoted v.toList ");".toList, ← map_snd_readString hbreaks, Option.map_eq_some_iff]
  constructor
  · rintro ⟨value, hread⟩
    exact ⟨(value, ");".toList), hread, rfl⟩
  · rintro ⟨⟨value, rest⟩, hread, rfl⟩
    exact ⟨value, hread⟩

/-- An escaped backslash in front of a quote, and the number of a character. -/
theorem backgroundUrl_closes_escapes :
    let v := "a\\\\\"\\41 b.png"
    Unbroken v.toList ∧ BackslashesPaired v.toList ∧
      ∃ url value, backgroundUrl? v = some url ∧ string? url = some (value, ");".toList) := by
  intro v
  have hl : Unbroken v.toList := by decide
  have hpaired : BackslashesPaired v.toList := by decide
  obtain ⟨url, hurl, hcloses, -⟩ := backgroundUrl_closes_iff hl
  obtain ⟨value, hread⟩ := hcloses.mpr hpaired
  exact ⟨hl, hpaired, url, value, hurl, hread⟩

/-- A backslash in front of a quote takes the one that was to escape the quote, so the string ends there; a backslash at
the end takes the closing quote. -/
theorem backgroundUrl_breaks_out :
    (backgroundUrl? "a\\\"b.png").bind string? = some ("a\\".toList, "b.png\");".toList) ∧
      (backgroundUrl? "a\\").bind string? = none := by
  rw [backgroundUrl?_eq, backgroundUrl?_eq]
  decide +kernel

end Arbitrary
end UtilityCss
