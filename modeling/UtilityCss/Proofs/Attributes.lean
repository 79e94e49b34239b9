import UtilityCss.Markup
import Mathlib.Data.List.Basic
import Mathlib.Data.List.TakeWhile

/-!
# Where class attributes stand

An attribute is an opening, a value without quotes, and a quote. An opening has its `c` in front and its quote at the
end, so that no opening begins inside of another one, and plain text in front of an attribute does not hide it.
-/

namespace UtilityCss

namespace Markup

variable {s v body after : List Char} {q : Char}

def QuoteFree (s : List Char) : Prop := ∀ c ∈ s, isQuote c = false

def Blank (s : List Char) : Prop := ∀ c ∈ s, Text.isBlank c = true

instance (s : List Char) : Decidable (QuoteFree s) := List.decidableBAll _ s

instance (s : List Char) : Decidable (Blank s) := List.decidableBAll _ s

/-! ## Characters -/

theorem isQuote_of_isBlank {c : Char} (h : Text.isBlank c = true) : isQuote c = false := by
  refine Bool.eq_false_iff.mpr fun hq => ?_
  simp only [isQuote, Bool.or_eq_true, decide_eq_true_eq] at hq
  rcases hq with (rfl | rfl) | rfl <;> cases h

theorem isBlank_of_isQuote {c : Char} (h : isQuote c = true) : Text.isBlank c = false := by
  refine Bool.eq_false_iff.mpr fun hb => ?_
  rw [isQuote_of_isBlank hb] at h
  cases h

theorem trimStart_append (hv : Blank v) (s : List Char) : Text.trimStart (v ++ s) = Text.trimStart s :=
  List.dropWhile_append_of_pos hv

theorem trimStart_cons {c : Char} (h : Text.isBlank c = false) (s : List Char) : Text.trimStart (c :: s) = c :: s :=
  List.dropWhile_cons_of_neg (by simp [h])

theorem exists_blank_append (s : List Char) : ∃ b, Blank b ∧ s = b ++ Text.trimStart s :=
  ⟨s.takeWhile Text.isBlank, fun _ hc => List.mem_takeWhile_imp hc, List.takeWhile_append_dropWhile.symm⟩

/-! ## Openings -/

theorem opened?_eq_some : opened? s = some body ↔
    ∃ before after q, Blank before ∧ Blank after ∧ isQuote q = true ∧ s = before ++ '=' :: (after ++ q :: body) := by
  constructor
  · intro h
    obtain ⟨before, hb, hs⟩ := exists_blank_append s
    unfold opened? at h
    split at h
    · rename_i rest heq
      obtain ⟨after, ha, hr⟩ := exists_blank_append rest
      split at h
      · rename_i q b hq
        split at h
        · rename_i hquote
          cases h
          exact ⟨before, after, q, hb, ha, hquote, by rw [hs, heq, hr, hq]⟩
        · cases h
      · cases h
    · cases h
  · rintro ⟨before, after, q, hb, ha, hq, rfl⟩
    unfold opened?
    rw [trimStart_append hb, trimStart_cons (by decide)]
    simp only [trimStart_append ha, trimStart_cons (isBlank_of_isQuote hq), hq, ↓reduceIte]

/-- What stands in front of a value: a keyword, an equals sign and a quote, blanks allowed around the equals sign. -/
inductive Opening : List Char → Prop where
  | mk {keyword : String} {before after : List Char} {q : Char} (hk : keyword = "class" ∨ keyword = "className")
      (hb : Blank before) (ha : Blank after) (hq : isQuote q = true) :
      Opening (keyword.toList ++ before ++ '=' :: (after ++ [q]))

namespace Opening

/-- The quote at the end is the only one. -/
theorem eq_append_quote (h : Opening s) : ∃ t q, s = t ++ [q] ∧ QuoteFree t ∧ isQuote q = true := by
  cases h with
  | @mk keyword before after q hk hb ha hq =>
      have hkeyword : QuoteFree keyword.toList := by rcases hk with rfl | rfl <;> decide
      refine ⟨keyword.toList ++ before ++ '=' :: after, q, by simp, fun c hc => ?_, hq⟩
      simp only [List.mem_append, List.mem_cons] at hc
      rcases hc with (hc | hc) | rfl | hc
      · exact hkeyword c hc
      · exact isQuote_of_isBlank (hb c hc)
      · rfl
      · exact isQuote_of_isBlank (ha c hc)

/-- The `c` in front is the only one. -/
theorem eq_cons (h : Opening s) : ∃ t, s = 'c' :: t ∧ 'c' ∉ t := by
  cases h with
  | @mk keyword before after q hk hb ha hq =>
      obtain ⟨k, hkeyword, hc⟩ : ∃ k, keyword.toList = 'c' :: k ∧ 'c' ∉ k := by
        rcases hk with rfl | rfl
        · exact ⟨"lass".toList, rfl, by decide⟩
        · exact ⟨"lassName".toList, rfl, by decide⟩
      refine ⟨k ++ before ++ '=' :: (after ++ [q]), by rw [hkeyword]; rfl, fun hmem => ?_⟩
      simp only [List.mem_append, List.mem_cons, List.not_mem_nil, or_false] at hmem
      rcases hmem with (hmem | hmem) | hmem | hmem | rfl
      · exact hc hmem
      · cases hb _ hmem
      · cases hmem
      · cases ha _ hmem
      · cases hq

/-- No opening begins inside of another one. -/
theorem eq_nil_of_append {x : List Char} (h : Opening s) (hx : Opening (x ++ s)) : x = [] := by
  obtain ⟨t, rfl, -⟩ := h.eq_cons
  obtain ⟨u, hu, hc⟩ := hx.eq_cons
  cases x with
  | nil => rfl
  | cons c x =>
      rw [List.cons_append] at hu
      cases hu
      exact absurd (List.mem_append_right x List.mem_cons_self) hc

end Opening

theorem takeWhile_quoteFree (hv : QuoteFree v) (hq : isQuote q = true) (s : List Char) :
    (v ++ q :: s).takeWhile (!isQuote ·) = v := by
  have hall : ∀ c ∈ v, (!isQuote c) = true := fun c hc => by rw [hv c hc]; rfl
  rw [List.takeWhile_append_of_pos hall, List.takeWhile_cons_of_neg (by simp [hq]), List.append_nil]

theorem dropWhile_quoteFree (hv : QuoteFree v) (hq : isQuote q = true) (s : List Char) :
    (v ++ q :: s).dropWhile (!isQuote ·) = q :: s := by
  have hall : ∀ c ∈ v, (!isQuote c) = true := fun c hc => by rw [hv c hc]; rfl
  rw [List.dropWhile_append_of_pos hall, List.dropWhile_cons_of_neg (by simp [hq])]

/-- The first quote tells where a text without quotes ends. -/
theorem append_quote_inj {u w : List Char} {q' : Char} (hv : QuoteFree v) (hu : QuoteFree u) (hq : isQuote q = true)
    (hq' : isQuote q' = true) (h : v ++ q :: s = u ++ q' :: w) : v = u ∧ q = q' ∧ s = w := by
  have hvu : v = u := by rw [← takeWhile_quoteFree hv hq s, h, takeWhile_quoteFree hu hq' w]
  subst hvu
  cases List.append_cancel_left h
  exact ⟨rfl, rfl, rfl⟩

/-! ## Attributes -/

theorem opened?_name (s : List Char) : opened? ("Name".toList ++ s) = none := by
  have htrim : Text.trimStart ("Name".toList ++ s) = "Name".toList ++ s := trimStart_cons (by decide) _
  unfold opened?
  rw [htrim]
  rfl

/-- The opening in front of a text, and the text behind it. -/
theorem keyword_opened {rest : List Char} : ((opened? rest <|> (Text.rest? "Name".toList rest).bind opened?) = some body) ↔
    ∃ o, Opening o ∧ "class".toList ++ rest = o ++ body := by
  constructor
  · intro h
    cases ho : opened? rest with
    | some b =>
        rw [ho] at h
        cases h
        obtain ⟨before, after, q, hb, ha, hq, rfl⟩ := opened?_eq_some.mp ho
        exact ⟨_, .mk (Or.inl rfl) hb ha hq, by simp⟩
    | none =>
        rw [ho] at h
        obtain ⟨r, hr, hopen⟩ := Option.bind_eq_some_iff.mp h
        obtain ⟨before, after, q, hb, ha, hq, rfl⟩ := opened?_eq_some.mp hopen
        rw [Text.rest?_eq_some] at hr
        exact ⟨_, .mk (Or.inr rfl) hb ha hq, by simp [hr]⟩
  · rintro ⟨o, ho, h⟩
    cases ho with
    | @mk keyword before after q hk hb ha hq =>
        have hopen : opened? (before ++ '=' :: (after ++ q :: body)) = some body :=
          opened?_eq_some.mpr ⟨before, after, q, hb, ha, hq, rfl⟩
        rcases hk with rfl | rfl
        · have hr : rest = before ++ '=' :: (after ++ q :: body) := by simpa using h
          rw [hr, hopen]
          rfl
        · have hr : rest = "Name".toList ++ (before ++ '=' :: (after ++ q :: body)) := by simpa using h
          rw [hr, opened?_name, Text.rest?_eq_some.mpr rfl]
          exact hopen

theorem attribute?_eq_some {value : List Char} : attribute? s = some (value, after) ↔
    ∃ o q, Opening o ∧ QuoteFree value ∧ isQuote q = true ∧ s = o ++ (value ++ q :: after) := by
  simp only [attribute?, bind, Option.bind_eq_some_iff]
  constructor
  · rintro ⟨rest, hrest, body, hbody, h⟩
    obtain ⟨o, ho, hs⟩ := keyword_opened.mp hbody
    split at h
    · cases h
    · rename_i q a hd
      cases h
      have hq : isQuote q = true := by
        have hhead := List.head?_dropWhile_not (!isQuote ·) body
        rw [hd] at hhead
        simpa using hhead
      refine ⟨o, q, ho, fun c hc => by simpa using List.mem_takeWhile_imp hc, hq, ?_⟩
      rw [Text.rest?_eq_some.mp hrest, hs, ← hd, List.takeWhile_append_dropWhile]
  · rintro ⟨o, q, ho, hv, hq, rfl⟩
    obtain ⟨r, hr⟩ : ∃ r, o ++ (value ++ q :: after) = "class".toList ++ r := by
      cases ho with
      | @mk keyword before a q' hk hb ha hq' =>
          rcases hk with rfl | rfl
          · exact ⟨_, by rw [List.append_assoc, List.append_assoc]⟩
          · exact ⟨"Name".toList ++ (before ++ '=' :: (a ++ [q'])) ++ (value ++ q :: after), by simp⟩
    refine ⟨r, Text.rest?_eq_some.mpr hr, value ++ q :: after, keyword_opened.mpr ⟨o, ho, hr.symm⟩, ?_⟩
    rw [dropWhile_quoteFree hv hq, takeWhile_quoteFree hv hq]

/-! ## Scanning -/

theorem values_nil : values [] = [] := by
  rw [values.eq_def]
  rfl

theorem values_of_attribute {value : List Char} (h : attribute? s = some (value, after)) :
    values s = value :: values after := by
  rw [values.eq_def]
  split
  · rename_i heq
    rw [h] at heq
    cases heq
    rfl
  · rename_i heq
    rw [h] at heq
    cases heq

theorem values_cons_of_none {c : Char} (h : attribute? (c :: s) = none) : values (c :: s) = values s := by
  rw [values.eq_def]
  split
  · rename_i heq
    rw [h] at heq
    cases heq
  · rfl

theorem values_quoteFree (h : QuoteFree s) : values s = [] := by
  induction s with
  | nil => exact values_nil
  | cons c s ih =>
      have hnone : attribute? (c :: s) = none := by
        refine Option.eq_none_iff_forall_ne_some.mpr fun p hp => ?_
        obtain ⟨o, q, -, -, hq, hs⟩ := attribute?_eq_some.mp hp
        rw [hs] at h
        have hfree : isQuote q = false := h q (by simp)
        rw [hq] at hfree
        cases hfree
      rw [values_cons_of_none hnone]
      exact ih fun d hd => h d (List.mem_cons_of_mem c hd)

/-- Text without quotes in front of an attribute is passed over, whatever it ends in. -/
theorem values_append {x o value : List Char} (hx : QuoteFree x) (ho : Opening o) (hv : QuoteFree value)
    (hq : isQuote q = true) : values (x ++ (o ++ (value ++ q :: after))) = value :: values after := by
  induction x with
  | nil => exact values_of_attribute (attribute?_eq_some.mpr ⟨o, q, ho, hv, hq, rfl⟩)
  | cons c x ih =>
      have hnone : attribute? ((c :: x) ++ (o ++ (value ++ q :: after))) = none := by
        refine Option.eq_none_iff_forall_ne_some.mpr fun p hp => ?_
        obtain ⟨o', q', ho', -, -, hs⟩ := attribute?_eq_some.mp hp
        obtain ⟨t, r, rfl, ht, hr⟩ := ho.eq_append_quote
        obtain ⟨t', r', rfl, ht', hr'⟩ := ho'.eq_append_quote
        -- Both openings end at the first quote, so the later one is inside of the earlier one.
        have hfree : QuoteFree ((c :: x) ++ t) := fun d hd => (List.mem_append.mp hd).elim (hx d) (ht d)
        have hquotes : ((c :: x) ++ t) ++ r :: (value ++ q :: after) = t' ++ r' :: (p.1 ++ q' :: p.2) := by
          simpa using hs
        obtain ⟨rfl, rfl, -⟩ := append_quote_inj hfree ht' hr hr' hquotes
        rw [List.append_assoc] at ho'
        cases ho.eq_nil_of_append ho'
      rw [List.cons_append] at hnone ⊢
      rw [values_cons_of_none hnone]
      exact ih fun d hd => hx d (List.mem_cons_of_mem c hd)

end Markup
end UtilityCss
