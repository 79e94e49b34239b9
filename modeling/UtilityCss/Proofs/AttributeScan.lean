import UtilityCss.Proofs.Attributes
import UtilityCss.Proofs.Firsts

/-!
# The scan for classes

A scan takes the leftmost attribute of a text, goes on behind it, and so comes to every attribute that does not begin
inside of an earlier one. The words of their values are the tokens of the text; those with an eligible base are its
classes, each where it comes first.
-/

namespace UtilityCss

/-! ## Words -/

namespace Text

/-- The words of a text: runs of other characters, with blanks between them. -/
inductive SplitsInto : List Char → List (List Char) → Prop where
  | blank {b : List Char} (hb : ∀ c ∈ b, isBlank c = true) : SplitsInto b []
  | word {b w s : List Char} {ws : List (List Char)} (hb : ∀ c ∈ b, isBlank c = true) (hw : w ≠ [])
      (hfull : ∀ c ∈ w, isBlank c = false) (hend : ∀ c ∈ s.head?, isBlank c = true) (hs : SplitsInto s ws) :
      SplitsInto (b ++ (w ++ s)) (w :: ws)

variable {s w : List Char} {ws : List (List Char)}

theorem splitsInto_words (s : List Char) : SplitsInto s (words s) := by
  fun_induction words s with
  | case1 s h => exact .blank (List.dropWhile_eq_nil_iff.mp h)
  | case2 s c rest h ih =>
      have hs : s = s.takeWhile isBlank ++ ((c :: rest.takeWhile (!isBlank ·)) ++ rest.dropWhile (!isBlank ·)) := by
        rw [List.cons_append, List.takeWhile_append_dropWhile, ← h]
        exact List.takeWhile_append_dropWhile.symm
      have hc : isBlank c = false := by
        have hhead := List.head?_dropWhile_not isBlank s
        rw [show s.dropWhile isBlank = c :: rest from h] at hhead
        simpa using hhead
      have hword : ∀ d ∈ c :: rest.takeWhile (!isBlank ·), isBlank d = false :=
        List.forall_mem_cons.mpr ⟨hc, fun d hd => by simpa using List.mem_takeWhile_imp hd⟩
      have hend : ∀ d ∈ (rest.dropWhile (!isBlank ·)).head?, isBlank d = true := by
        intro d hd
        have hhead := List.head?_dropWhile_not (!isBlank ·) rest
        rw [Option.mem_def.mp hd] at hhead
        simpa using hhead
      have hblank : ∀ d ∈ s.takeWhile isBlank, isBlank d = true := fun d hd => List.mem_takeWhile_imp hd
      have hsplit := SplitsInto.word hblank (List.cons_ne_nil _ _) hword hend ih
      rwa [← hs] at hsplit

theorem SplitsInto.words_eq (h : SplitsInto s ws) : words s = ws := by
  induction h with
  | blank hb =>
      rw [words.eq_def]
      split
      · rfl
      · rename_i heq
        rw [trimStart, List.dropWhile_eq_nil_iff.mpr hb] at heq
        cases heq
  | @word b w s ws hb hw hfull hend hs ih =>
      obtain ⟨c, v, rfl⟩ := List.exists_cons_of_ne_nil hw
      obtain ⟨hc, hv⟩ := List.forall_mem_cons.mp hfull
      have htrim : trimStart (b ++ ((c :: v) ++ s)) = c :: (v ++ s) := by
        rw [trimStart, List.dropWhile_append_of_pos hb, List.cons_append, List.dropWhile_cons_of_neg (by simp [hc])]
      have hall : ∀ d ∈ v, (!isBlank d) = true := fun d hd => by rw [hv d hd]; rfl
      have hstop : s.takeWhile (!isBlank ·) = [] ∧ s.dropWhile (!isBlank ·) = s := by
        cases s with
        | nil => exact ⟨rfl, rfl⟩
        | cons d s =>
            have hd : isBlank d = true := hend d rfl
            simp [hd]
      rw [words.eq_def]
      split
      · rename_i heq
        rw [htrim] at heq
        cases heq
      · rename_i heq
        rw [htrim] at heq
        cases heq
        rw [List.takeWhile_append_of_pos hall, List.dropWhile_append_of_pos hall, hstop.1, hstop.2, ih, List.append_nil]

theorem splitsInto_iff : SplitsInto s ws ↔ words s = ws :=
  ⟨SplitsInto.words_eq, fun h => h ▸ splitsInto_words s⟩

theorem SplitsInto.forall_mem (h : SplitsInto s ws) (hw : w ∈ ws) :
    w ≠ [] ∧ ∀ c ∈ w, isBlank c = false ∧ c ∈ s := by
  induction h with
  | blank hb => cases hw
  | @word b v s ws hb hv hfull hend hs ih =>
      rcases List.mem_cons.mp hw with rfl | hw
      · exact ⟨hv, fun c hc => ⟨hfull c hc, by simp [hc]⟩⟩
      · obtain ⟨hne, hmem⟩ := ih hw
        exact ⟨hne, fun c hc => ⟨(hmem c hc).1, by simp [(hmem c hc).2]⟩⟩

/-- The pieces stand in the text, one behind the other. -/
inductive InOrder : List (List Char) → List Char → Prop where
  | nil {s : List Char} : InOrder [] s
  | cons {x p s : List Char} {ps : List (List Char)} (h : InOrder ps s) : InOrder (p :: ps) (x ++ (p ++ s))

theorem InOrder.behind {ps : List (List Char)} (h : InOrder ps s) (x : List Char) : InOrder ps (x ++ s) := by
  cases h with
  | nil => exact .nil
  | @cons y p t ps h =>
      rw [← List.append_assoc]
      exact .cons h

theorem InOrder.append {ps qs : List (List Char)} {t : List Char} (h : InOrder ps s) (h' : InOrder qs t) :
    InOrder (ps ++ qs) (s ++ t) := by
  induction h with
  | nil => exact h'.behind _
  | @cons x p s ps _ ih =>
      rw [List.cons_append, List.append_assoc, List.append_assoc]
      exact .cons ih

theorem SplitsInto.inOrder (h : SplitsInto s ws) : InOrder ws s := by
  induction h with
  | blank hb => exact .nil
  | word hb hw hfull hend hs ih => exact .cons ih

end Text

/-! ## Attributes -/

namespace Markup

open Text (SplitsInto InOrder)

variable {s before value after : List Char} {ts : List (List Char)}

/-- An attribute stands in front of the text: an opening and, somewhere behind it, a quote. -/
def StartsAttribute (s : List Char) : Prop :=
  ∃ o body q rest, Opening o ∧ isQuote q = true ∧ s = o ++ (body ++ q :: rest)

/-- The leftmost attribute of the text. Its value ends at the first quote. -/
structure Leftmost (s before value after : List Char) : Prop where
  eq : ∃ o q, Opening o ∧ QuoteFree value ∧ isQuote q = true ∧ s = before ++ (o ++ (value ++ q :: after))
  leftmost : ∀ x y, s = x ++ y → StartsAttribute y → before.length ≤ x.length

/-- The words in the leftmost attribute of the text, and then those in the text behind it. -/
inductive Finds : List Char → List (List Char) → Prop where
  | done {s : List Char} (h : ∀ x y, s = x ++ y → ¬ StartsAttribute y) : Finds s []
  | next {s before value after : List Char} {ws ts : List (List Char)} (h : Leftmost s before value after)
      (hw : SplitsInto value ws) (hafter : Finds after ts) : Finds s (ws ++ ts)

theorem exists_first_quote (body : List Char) {q : Char} (hq : isQuote q = true) (rest : List Char) :
    ∃ value q' after, QuoteFree value ∧ isQuote q' = true ∧ body ++ q :: rest = value ++ q' :: after := by
  induction body with
  | nil => exact ⟨[], q, rest, List.forall_mem_nil _, hq, rfl⟩
  | cons c body ih =>
      cases hc : isQuote c with
      | true => exact ⟨[], c, body ++ q :: rest, List.forall_mem_nil _, hc, rfl⟩
      | false =>
          obtain ⟨value, q', after, hv, hq', heq⟩ := ih
          exact ⟨c :: value, q', after, List.forall_mem_cons.mpr ⟨hc, hv⟩, hq', by rw [List.cons_append, heq]; rfl⟩

theorem attribute?_eq_none : attribute? s = none ↔ ¬ StartsAttribute s := by
  rw [Option.eq_none_iff_forall_ne_some]
  refine not_iff_not.mp ?_
  push Not
  constructor
  · rintro ⟨p, hp⟩
    obtain ⟨o, q, ho, -, hq, hs⟩ := attribute?_eq_some.mp hp
    exact ⟨o, p.1, q, p.2, ho, hq, hs⟩
  · rintro ⟨o, body, q, rest, ho, hq, rfl⟩
    obtain ⟨value, q', after, hv, hq', heq⟩ := exists_first_quote body hq rest
    exact ⟨(value, after), attribute?_eq_some.mpr ⟨o, q', ho, hv, hq', by rw [heq]⟩⟩

theorem Leftmost.here (h : attribute? s = some (value, after)) : Leftmost s [] value after where
  eq := attribute?_eq_some.mp h
  leftmost _ _ _ _ := Nat.zero_le _

theorem Leftmost.cons {c : Char} (hc : ¬ StartsAttribute (c :: s)) (h : Leftmost s before value after) :
    Leftmost (c :: s) (c :: before) value after where
  eq := by
    obtain ⟨o, q, ho, hv, hq, rfl⟩ := h.eq
    exact ⟨o, q, ho, hv, hq, rfl⟩
  leftmost x y hxy hy := by
    cases x with
    | nil => exact absurd (hxy ▸ hy) hc
    | cons d x =>
        cases hxy
        exact Nat.succ_le_succ (h.leftmost x y rfl hy)

theorem Finds.cons {c : Char} (hc : ¬ StartsAttribute (c :: s)) (h : Finds s ts) : Finds (c :: s) ts := by
  cases h with
  | next hleft hw hafter => exact .next (hleft.cons hc) hw hafter
  | done hnone =>
      refine .done fun x y hxy hy => ?_
      cases x with
      | nil => exact hc (hxy ▸ hy)
      | cons d x =>
          cases hxy
          exact hnone x y rfl hy

/-- Text in which no attribute begins is passed over. -/
theorem values_skip {t : List Char} (h : ∀ x y, before = x ++ y → y ≠ [] → ¬ StartsAttribute (y ++ t)) :
    values (before ++ t) = values t := by
  induction before with
  | nil => rfl
  | cons c before ih =>
      have hnone := attribute?_eq_none.mpr (h [] (c :: before) rfl (List.cons_ne_nil _ _))
      rw [List.cons_append] at hnone ⊢
      rw [values_cons_of_none hnone]
      exact ih fun x y hxy => h (c :: x) y (by rw [hxy]; rfl)

theorem Leftmost.values_eq (h : Leftmost s before value after) : values s = value :: values after := by
  obtain ⟨o, q, ho, hv, hq, rfl⟩ := h.eq
  have hattr : attribute? (o ++ (value ++ q :: after)) = some (value, after) :=
    attribute?_eq_some.mpr ⟨o, q, ho, hv, hq, rfl⟩
  rw [values_skip, values_of_attribute hattr]
  -- an attribute that begins inside `before` would be further to the left
  intro x y hxy hne hstarts
  have hle := h.leftmost x _ (by rw [hxy, List.append_assoc]) hstarts
  have hpos := List.length_pos_iff.mpr hne
  rw [hxy, List.length_append] at hle
  omega

theorem values_eq_nil (h : ∀ x y, s = x ++ y → ¬ StartsAttribute y) : values s = [] := by
  have hskip : values (s ++ []) = values [] :=
    values_skip fun x y hxy _ => h x (y ++ []) (by rw [List.append_nil, hxy])
  rwa [List.append_nil, values_nil] at hskip

/-! ## Tokens -/

theorem finds_words (s : List Char) : Finds s ((values s).flatMap Text.words) := by
  fun_induction values s with
  | case1 s value after h ih => exact .next (.here h) (Text.splitsInto_words value) ih
  | case2 h =>
      refine .done fun x y hxy hy => ?_
      obtain ⟨rfl, rfl⟩ := List.nil_eq_append_iff.mp hxy
      exact attribute?_eq_none.mp h hy
  | case3 c s h ih => exact ih.cons (attribute?_eq_none.mp h)

theorem Finds.words_eq (h : Finds s ts) : (values s).flatMap Text.words = ts := by
  induction h with
  | done hnone => rw [values_eq_nil hnone, List.flatMap_nil]
  | next hleft hw _ ih => rw [hleft.values_eq, List.flatMap_cons, hw.words_eq, ih]

theorem Finds.forall_mem (h : Finds s ts) {t : List Char} (ht : t ∈ ts) :
    t ≠ [] ∧ ∀ c ∈ t, Text.isBlank c = false ∧ isQuote c = false := by
  induction h with
  | done _ => cases ht
  | next hleft hw _ ih =>
      rcases List.mem_append.mp ht with ht | ht
      · obtain ⟨-, -, -, hfree, -⟩ := hleft.eq
        obtain ⟨hne, hmem⟩ := hw.forall_mem ht
        exact ⟨hne, fun c hc => ⟨(hmem c hc).1, hfree c (hmem c hc).2⟩⟩
      · exact ih ht

theorem Finds.inOrder (h : Finds s ts) : InOrder ts s := by
  induction h with
  | done _ => exact .nil
  | next hleft hw _ ih =>
      obtain ⟨o, q, -, -, -, rfl⟩ := hleft.eq
      have hbehind := (hw.inOrder.append (ih.behind [q])).behind o
      exact hbehind.behind _

theorem toList_tokens (text : String) : (tokens text).map String.toList = (values text.toList).flatMap Text.words := by
  have hid : String.toList ∘ String.ofList = id := funext fun _ => String.toList_ofList
  simp only [tokens, List.map_flatMap, List.map_map, hid, List.map_id]

end Markup

/-! ## Classes -/

section Firsts

variable {α : Type} [DecidableEq α]

theorem firstsBy_id_sublist (seen xs : List α) : (firstsBy id seen xs).Sublist xs := by
  induction xs generalizing seen with
  | nil => exact .slnil
  | cons x xs ih =>
      by_cases h : id x ∈ seen
      · rw [firstsBy_cons_of_mem h]
        exact (ih seen).cons x
      · rw [firstsBy_cons_of_not_mem h]
        exact (ih _).cons_cons x

/-- A list in the order of the first places of its entries stays in order when another entry is put in front. -/
theorem pairwise_idxOf_cons {x : α} {xs ys : List α} (h : ys.Pairwise fun a b => xs.idxOf a < xs.idxOf b)
    (hne : ∀ y ∈ ys, y ≠ x) : ys.Pairwise fun a b => (x :: xs).idxOf a < (x :: xs).idxOf b := by
  refine h.imp_of_mem fun {a b} ha hb hlt => ?_
  rw [List.idxOf_cons_ne _ (hne a ha).symm, List.idxOf_cons_ne _ (hne b hb).symm]
  exact Nat.succ_lt_succ hlt

/-- First occurrences stand in the order in which they come in the list that they were picked from. -/
theorem pairwise_idxOf_firstsBy (p : α → Bool) (seen xs : List α) :
    (firstsBy id seen (xs.filter p)).Pairwise fun a b => xs.idxOf a < xs.idxOf b := by
  induction xs generalizing seen with
  | nil => exact .nil
  | cons x xs ih =>
      cases hp : p x with
      | false =>
          rw [List.filter_cons_of_neg (by simp [hp])]
          refine pairwise_idxOf_cons (ih seen) fun y hy => ?_
          rintro rfl
          have hpy := (List.mem_filter.mp (mem_of_mem_firstsBy hy).1).2
          rw [hp] at hpy
          cases hpy
      | true =>
          rw [List.filter_cons_of_pos hp]
          by_cases h : id x ∈ seen
          · rw [firstsBy_cons_of_mem h]
            refine pairwise_idxOf_cons (ih seen) fun y hy => ?_
            rintro rfl
            exact (mem_of_mem_firstsBy hy).2 h
          · have hne : ∀ y ∈ firstsBy id (seen ++ [id x]) (xs.filter p), y ≠ x := by
              rintro y hy rfl
              exact (mem_of_mem_firstsBy hy).2 (List.mem_append_right _ List.mem_cons_self)
            rw [firstsBy_cons_of_not_mem h]
            refine List.pairwise_cons.mpr ⟨fun y hy => ?_, pairwise_idxOf_cons (ih _) hne⟩
            rw [List.idxOf_cons_self, List.idxOf_cons_ne _ (hne y hy).symm]
            exact Nat.succ_pos _

end Firsts

/-! ## The theorem -/

/-- The tokens of a text are the words in its attributes, from the leftmost one on, each looked for behind the one in
front of it. They hold neither blanks nor quotes and stand in the text one behind the other. The classes are the tokens
with an eligible base, each once and in the order of their first places. -/
theorem Markup.tokens_are_found (text : String) :
    (∀ ts, Finds text.toList ts ↔ (tokens text).map String.toList = ts) ∧
      (∀ t ∈ tokens text, t ≠ "" ∧ ∀ c ∈ t.toList, Text.isBlank c = false ∧ isQuote c = false) ∧
      Text.InOrder ((tokens text).map String.toList) text.toList ∧
      (classes text).Sublist (tokens text) ∧ (classes text).Nodup ∧
      (∀ t, t ∈ classes text ↔ t ∈ tokens text ∧ isEligible (baseOf t) = true) ∧
      (classes text).Pairwise fun t u => (tokens text).idxOf t < (tokens text).idxOf u := by
  have hfinds : Finds text.toList ((tokens text).map String.toList) := toList_tokens text ▸ finds_words text.toList
  have hclasses : classes text = firstsBy id [] ((tokens text).filter fun t => isEligible (baseOf t)) :=
    (firstsBy_id_nil _).symm
  have hpairwise := pairwise_idxOf_firstsBy (fun t => isEligible (baseOf t)) [] (tokens text)
  refine ⟨fun ts => ⟨fun h => (toList_tokens text).trans h.words_eq, fun h => h ▸ hfinds⟩, fun t ht => ?_,
    hfinds.inOrder, ?_, ?_, fun t => ?_, ?_⟩
  · obtain ⟨hne, hmem⟩ := hfinds.forall_mem (List.mem_map_of_mem ht)
    exact ⟨fun h => hne (by rw [h]; rfl), hmem⟩
  · rw [hclasses]
    exact (firstsBy_id_sublist _ _).trans List.filter_sublist
  · rw [hclasses]
    have hnodup := nodup_map_firstsBy id [] ((tokens text).filter fun t => isEligible (baseOf t))
    rwa [List.map_id] at hnodup
  · rw [classes, List.mem_eraseDups, List.mem_filter]
  · rw [hclasses]
    exact hpairwise

/-- A value that another kind of quote ends, the keyword in front of the longer one, and an attribute without an end. -/
example : Markup.tokens "class='is-flex\" className = \n`if-star is-flex` class=\"is-none" =
    ["is-flex", "if-star", "is-flex"] := by
  decide +kernel

end UtilityCss
