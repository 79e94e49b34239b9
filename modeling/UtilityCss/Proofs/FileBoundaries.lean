import UtilityCss.Project.Scan
import UtilityCss.Proofs.Attributes

/-!
# Attributes and the ends of files

The content of a scan is made of the texts of the files, a line end behind each. An attribute that is left open at the
end of a text goes on in the next one, and takes from it what it would be on its own. All other texts are scanned as if
they were alone.
-/

namespace UtilityCss

theorem Text.words_ne_nil {s : List Char} {c : Char} (h : c ∈ s) (hc : isBlank c = false) : words s ≠ [] := by
  rw [words.eq_def]
  split
  · rename_i hnil
    rw [List.dropWhile_eq_nil_iff.mp hnil c h] at hc
    cases hc
  · exact List.cons_ne_nil _ _

namespace Markup

/-- The scan of the first text finds the values and then stands in front of the last one. -/
inductive Passes : List Char → List (List Char) → List Char → Prop where
  | stop {s : List Char} : Passes s [] s
  | skip {c : Char} {s r : List Char} {vs : List (List Char)} (h : attribute? (c :: s) = none) (hs : Passes s vs r) :
      Passes (c :: s) vs r
  | take {s v after r : List Char} {vs : List (List Char)} (h : attribute? s = some (v, after))
      (hs : Passes after vs r) : Passes s (v :: vs) r

/-- The front of an attribute: a keyword, the equals sign behind it, or a whole opening and what is there of the value. -/
inductive Unfinished : List Char → Prop where
  | keyword {keyword : String} {before : List Char} (hk : keyword = "class" ∨ keyword = "className")
      (hb : Blank before) : Unfinished (keyword.toList ++ before)
  | equals {keyword : String} {before after : List Char} (hk : keyword = "class" ∨ keyword = "className")
      (hb : Blank before) (ha : Blank after) : Unfinished (keyword.toList ++ before ++ '=' :: after)
  | value {o v : List Char} (ho : Opening o) (hv : QuoteFree v) : Unfinished (o ++ v)

/-- Whether the scan of `s` comes to an attribute that goes on to the end of `s`. -/
def LeavesOpen (s : List Char) : Prop := ∃ vs y, Passes s vs y ∧ Unfinished y

/-- Whether an attribute begins in `s` and ends in `rest`, with a line end between the two. -/
def RunsInto (s rest : List Char) : Prop :=
  ∃ vs y v after, Passes s vs y ∧ attribute? (y ++ '\n' :: rest) = some (v, after) ∧ after.length ≤ rest.length

variable {s r rest v after y : List Char} {vs : List (List Char)} {text : String}

theorem Blank.quoteFree {b : List Char} (h : Blank b) : QuoteFree b := fun c hc => isQuote_of_isBlank (h c hc)

/-! ## One attribute -/

theorem attribute?_append (h : attribute? s = some (v, after)) (t : List Char) :
    attribute? (s ++ t) = some (v, after ++ t) := by
  obtain ⟨o, q, ho, hv, hq, rfl⟩ := attribute?_eq_some.mp h
  exact attribute?_eq_some.mpr ⟨o, q, ho, hv, hq, by simp⟩

theorem attribute?_lineEnd (s : List Char) : attribute? ('\n' :: s) = none := rfl

theorem eq_append_of_not_mem {u w x : List Char} {d : Char} (h : u ++ w = s ++ d :: x) (hd : d ∉ u) :
    ∃ t, s = u ++ t ∧ w = t ++ d :: x := by
  rcases List.append_eq_append_iff.mp h with ⟨t, rfl, hw⟩ | ⟨t, rfl, hw⟩
  · exact ⟨t, rfl, hw⟩
  · cases t with
    | nil => exact ⟨[], by simp, by simpa using hw.symm⟩
    | cons c t =>
        cases hw
        exact absurd (List.mem_append_right s List.mem_cons_self) hd

/-- A line end in an opening is one of its blanks. -/
theorem Opening.unfinished {x : List Char} (h : Opening (s ++ '\n' :: x)) : Unfinished s := by
  generalize ho : s ++ '\n' :: x = o at h
  cases h with
  | @mk keyword before after q hk hb ha hq =>
      have hkey : '\n' ∉ keyword.toList := by rcases hk with rfl | rfl <;> decide
      rw [List.append_assoc] at ho
      obtain ⟨b, rfl, hrest⟩ := eq_append_of_not_mem ho.symm hkey
      rcases List.append_eq_append_iff.mp hrest with ⟨e, rfl, hequals⟩ | ⟨b', rfl, -⟩
      · obtain ⟨a, rfl, hlast⟩ := eq_append_of_not_mem (u := ['=']) (w := after ++ [q]) hequals (by decide)
        have hafter : after = a ++ ('\n' :: x).dropLast := by
          rw [← List.dropLast_append_of_ne_nil (List.cons_ne_nil _ _), ← hlast, List.dropLast_concat]
        rw [← List.append_assoc]
        exact .equals hk hb fun c hc => ha c (hafter ▸ List.mem_append_left _ hc)
      · exact .keyword hk fun c hc => hb c (List.mem_append_left _ hc)

/-- An attribute that `s` does not hold alone, but with a line end and `rest` behind it, ends in `rest`. -/
theorem unfinished_of_attribute (hs : attribute? s = none) (h : attribute? (s ++ '\n' :: rest) = some (v, after)) :
    Unfinished s ∧ after.length ≤ rest.length := by
  obtain ⟨o, q, ho, hv, hq, heq⟩ := attribute?_eq_some.mp h
  rw [← List.append_assoc] at heq
  rcases List.append_eq_append_iff.mp heq with ⟨x, hfront, hrest⟩ | ⟨x, rfl, hafter⟩
  · cases x with
    | nil =>
        cases hrest
        cases hq
    | cons c x =>
        cases hrest
        refine ⟨?_, by simp; omega⟩
        rcases List.append_eq_append_iff.mp hfront with ⟨w, rfl, rfl⟩ | ⟨w, rfl, hw⟩
        · exact .value ho fun c hc => hv c (List.mem_append_left _ hc)
        · cases w with
          | nil =>
              rw [List.append_nil] at ho
              exact List.append_nil s ▸ .value ho (List.forall_mem_nil _)
          | cons c w =>
              cases hw
              exact ho.unfinished
  · cases x with
    | nil =>
        cases hafter
        cases hq
    | cons c x =>
        cases hafter
        have hsome : attribute? (o ++ v ++ q :: x) = some (v, x) :=
          attribute?_eq_some.mpr ⟨o, q, ho, hv, hq, List.append_assoc o v _⟩
        rw [hsome] at hs
        cases hs

/-! ## Two texts -/

theorem values_append_of_not_runsInto (h : ¬ RunsInto s rest) : values (s ++ '\n' :: rest) = values s ++ values rest := by
  fun_induction values s with
  | case1 s v after hattr ih =>
      rw [values_of_attribute (attribute?_append hattr _), List.cons_append, ih]
      rintro ⟨vs, y, v', after', hpasses, hy⟩
      exact h ⟨v :: vs, y, v', after', .take hattr hpasses, hy⟩
  | case2 hnone => exact values_cons_of_none (attribute?_lineEnd rest)
  | case3 c s hnone ih =>
      have hskip : attribute? ((c :: s) ++ '\n' :: rest) = none := by
        refine Option.eq_none_iff_forall_ne_some.mpr fun p hp => ?_
        exact h ⟨[], c :: s, p.1, p.2, .stop, hp, (unfinished_of_attribute hnone hp).2⟩
      rw [List.cons_append] at hskip ⊢
      rw [values_cons_of_none hskip, ih]
      rintro ⟨vs, y, v', after', hpasses, hy⟩
      exact h ⟨vs, y, v', after', .skip hnone hpasses, hy⟩

/-! ## What is left open -/

/-- An attribute has two quotes, so an unfinished one holds none. -/
theorem two_le_countP (h : attribute? s = some (v, after)) : 2 ≤ s.countP isQuote := by
  obtain ⟨o, q, ho, -, hq, rfl⟩ := attribute?_eq_some.mp h
  obtain ⟨t, q', rfl, -, hq'⟩ := ho.eq_append_quote
  simp [List.countP_append, hq, hq']
  omega

theorem values_of_countP (h : s.countP isQuote ≤ 1) : values s = [] := by
  induction s with
  | nil => exact values_nil
  | cons c s ih =>
      have hnone : attribute? (c :: s) = none := by
        refine Option.eq_none_iff_forall_ne_some.mpr fun p hp => ?_
        have htwo := two_le_countP hp
        omega
      rw [values_cons_of_none hnone]
      exact ih ((List.sublist_cons_self c s).countP_le.trans h)

theorem countP_quoteFree (h : QuoteFree s) : s.countP isQuote = 0 :=
  List.countP_eq_zero.mpr fun c hc => by simp [h c hc]

theorem Unfinished.values_eq (h : Unfinished y) : values y = [] := by
  refine values_of_countP ?_
  cases h with
  | @keyword keyword before hk hb =>
      have hkey : keyword.toList.countP isQuote = 0 := by rcases hk with rfl | rfl <;> decide
      rw [List.countP_append, hkey, countP_quoteFree hb.quoteFree]
      omega
  | @equals keyword before after hk hb ha =>
      have hkey : keyword.toList.countP isQuote = 0 := by rcases hk with rfl | rfl <;> decide
      rw [List.countP_append, List.countP_append, List.countP_cons_of_neg (by decide), hkey,
        countP_quoteFree hb.quoteFree, countP_quoteFree ha.quoteFree]
      omega
  | @value o v ho hv =>
      obtain ⟨t, q, rfl, ht, hq⟩ := ho.eq_append_quote
      rw [List.countP_append, List.countP_append, countP_quoteFree ht, countP_quoteFree hv, List.countP_singleton, hq]
      decide

/-- Texts one of which ends any attribute that a line end leaves open. -/
def completions : List String := ["=\"a\"", "\"a\"", "a\""]

theorem Blank.lineEnd {b : List Char} (h : Blank b) : Blank (b ++ ['\n']) :=
  List.forall_mem_append.mpr ⟨h, List.forall_mem_singleton.mpr rfl⟩

theorem Unfinished.completed (h : Unfinished y) : ∃ next ∈ completions, ∃ x,
    attribute? (y ++ '\n' :: next.toList) = some (x, []) ∧ Text.words x ≠ [] := by
  cases h with
  | @keyword keyword before hk hb =>
      have ho := Opening.mk (q := '"') hk hb.lineEnd (List.forall_mem_nil _) rfl
      exact ⟨"=\"a\"", by decide, ['a'],
        attribute?_eq_some.mpr ⟨_, '"', ho, by decide, rfl, by simp⟩, by decide +kernel⟩
  | @equals keyword before after hk hb ha =>
      have ho := Opening.mk (q := '"') hk hb ha.lineEnd rfl
      exact ⟨"\"a\"", by decide, ['a'],
        attribute?_eq_some.mpr ⟨_, '"', ho, by decide, rfl, by simp⟩, by decide +kernel⟩
  | @value o v ho hv =>
      have hfree : QuoteFree (v ++ ['\n', 'a']) :=
        List.forall_mem_append.mpr ⟨hv, List.forall_mem_cons.mpr ⟨rfl, List.forall_mem_singleton.mpr rfl⟩⟩
      exact ⟨"a\"", by decide, v ++ ['\n', 'a'],
        attribute?_eq_some.mpr ⟨o, '"', ho, hfree, rfl, by simp⟩, Text.words_ne_nil (c := 'a') (by simp) rfl⟩

/-- The first attribute that is left open is come to whatever stands behind the line end. -/
theorem LeavesOpen.exists_first (h : LeavesOpen s) : ∃ vs y, Unfinished y ∧ values s = vs ∧
    ∀ next : List Char, values (s ++ '\n' :: next) = vs ++ values (y ++ '\n' :: next) := by
  obtain ⟨vs, y, hpasses, hy⟩ := h
  induction hpasses with
  | @stop y => exact ⟨[], y, hy, hy.values_eq, fun _ => rfl⟩
  | @skip c s r vs hnone _ ih =>
      by_cases hc : Unfinished (c :: s)
      · exact ⟨[], c :: s, hc, hc.values_eq, fun _ => rfl⟩
      · obtain ⟨vs', y', hy', hvalues, hnext⟩ := ih hy
        refine ⟨vs', y', hy', (values_cons_of_none hnone).trans hvalues, fun next => ?_⟩
        have hskip : attribute? ((c :: s) ++ '\n' :: next) = none :=
          Option.eq_none_iff_forall_ne_some.mpr fun p hp => hc (unfinished_of_attribute hnone hp).1
        rw [List.cons_append] at hskip ⊢
        rw [values_cons_of_none hskip, hnext]
  | @take s v after r vs hattr _ ih =>
      obtain ⟨vs', y', hy', hvalues, hnext⟩ := ih hy
      refine ⟨v :: vs', y', hy', by rw [values_of_attribute hattr, hvalues], fun next => ?_⟩
      rw [values_of_attribute (attribute?_append hattr _), hnext, List.cons_append]

theorem LeavesOpen.exists_value (h : LeavesOpen s) : ∃ next ∈ completions, ∃ x, Text.words x ≠ [] ∧
    ∀ t : List Char, values (s ++ '\n' :: (next.toList ++ t)) = values s ++ x :: values t := by
  obtain ⟨vs, y, hy, rfl, hnext⟩ := h.exists_first
  obtain ⟨next, hmem, x, hattr, hx⟩ := hy.completed
  refine ⟨next, hmem, x, hx, fun t => ?_⟩
  have hattr' := attribute?_append hattr t
  rw [List.append_assoc, List.cons_append] at hattr'
  rw [hnext, values_of_attribute hattr', List.nil_append]

theorem leavesOpen_iff_runsInto : LeavesOpen s ↔ ∃ rest, RunsInto s rest := by
  constructor
  · rintro ⟨vs, y, hpasses, hy⟩
    obtain ⟨next, -, x, hattr, -⟩ := hy.completed
    exact ⟨next.toList, vs, y, x, [], hpasses, hattr, Nat.zero_le _⟩
  · rintro ⟨rest, vs, y, v, after, hpasses, hattr, hlen⟩
    refine ⟨vs, y, hpasses, ?_⟩
    cases hy : attribute? y with
    | none => exact (unfinished_of_attribute hy hattr).1
    | some p =>
        rw [attribute?_append hy] at hattr
        cases hattr
        simp at hlen
        omega

theorem values_completion : ∀ next ∈ completions, values next.toList = [] := by decide +kernel

theorem leavesOpen_iff_values :
    LeavesOpen s ↔ ∃ next ∈ completions, values (s ++ '\n' :: next.toList) ≠ values s := by
  constructor
  · intro h
    obtain ⟨next, hmem, x, -, hvalues⟩ := h.exists_value
    have hvalue := hvalues []
    rw [List.append_nil] at hvalue
    exact ⟨next, hmem, by rw [hvalue]; simp⟩
  · rintro ⟨next, hmem, hne⟩
    by_contra hopen
    refine hne ?_
    rw [values_append_of_not_runsInto fun h => hopen (leavesOpen_iff_runsInto.mpr ⟨_, h⟩), values_completion next hmem,
      List.append_nil]

instance (s : List Char) : Decidable (LeavesOpen s) := decidable_of_iff' _ leavesOpen_iff_values

/-! ## Files -/

/-- The texts of files, a line end behind each. -/
def content (texts : List String) : String := String.join (texts.map (· ++ "\n"))

theorem content_cons (text : String) (texts : List String) :
    (content (text :: texts)).toList = text.toList ++ '\n' :: (content texts).toList := by
  simp [content]

theorem readContent_eq {t : FileTree} {files : List Path} {texts : List String}
    (h : List.Forall₂ (fun file text => t.readText file = .ok text) files texts) :
    readContent t files = .ok (content texts) := by
  induction h with
  | nil => rfl
  | cons hread _ ih => simp [readContent, hread, ih, Except.map, content]

/-- Whether no attribute begins in one of the texts and ends in a later one. -/
def Apart : List String → Prop
  | [] => True
  | text :: texts => ¬ RunsInto text.toList (content texts).toList ∧ Apart texts

theorem not_runsInto_nil : ¬ RunsInto s [] := by
  rintro ⟨vs, y, v, after, -, hattr, hlen⟩
  obtain ⟨o, q, -, -, hq, heq⟩ := attribute?_eq_some.mp hattr
  obtain rfl : after = [] := List.length_eq_zero_iff.mp (Nat.le_zero.mp hlen)
  have hlast : some '\n' = some q := by
    rw [← List.getLast?_concat (l := y), heq, ← List.append_assoc, List.getLast?_concat]
  cases hlast
  cases hq

theorem apart_of_not_leavesOpen {texts : List String} (h : ∀ text ∈ texts.dropLast, ¬ LeavesOpen text.toList) :
    Apart texts := by
  induction texts with
  | nil => trivial
  | cons text texts ih =>
      cases texts with
      | nil => exact ⟨not_runsInto_nil, trivial⟩
      | cons next texts =>
          refine ⟨fun hruns => h text List.mem_cons_self (leavesOpen_iff_runsInto.mpr ⟨_, hruns⟩), ih fun u hu => ?_⟩
          exact h u (List.mem_cons_of_mem _ hu)

theorem tokens_content {texts : List String} (h : Apart texts) : tokens (content texts) = texts.flatMap tokens := by
  induction texts with
  | nil => decide +kernel
  | cons text texts ih =>
      rw [tokens, content_cons, values_append_of_not_runsInto h.1, List.flatMap_append, List.flatMap_cons, ← ih h.2]
      rfl

theorem leavesOpen_iff_tokens (text : String) :
    LeavesOpen text.toList ↔ ∃ next, tokens (content [text, next]) ≠ tokens text ++ tokens next := by
  constructor
  · intro h
    obtain ⟨next, hmem, x, hx, hvalues⟩ := h.exists_value
    have hcontent : (content [text, next]).toList = text.toList ++ '\n' :: (next.toList ++ ['\n']) := by simp [content]
    have hline : values ['\n'] = [] := by decide +kernel
    refine ⟨next, fun heq => hx ?_⟩
    simp only [tokens, hcontent, hvalues, hline, values_completion next hmem] at heq
    simpa using heq
  · rintro ⟨next, hne⟩
    by_contra hopen
    refine hne ?_
    have hapart : Apart [text, next] := apart_of_not_leavesOpen (by simpa using hopen)
    simpa using tokens_content hapart

/-! ## The theorem -/

/-- Files of which none runs into a later one are scanned as if each were alone. None does if no text but the last
leaves an attribute open; and a text that does leave one open does not go with every text behind it. -/
theorem tokens_of_files {t : FileTree} {files : List Path} {texts : List String}
    (hread : List.Forall₂ (fun file text => t.readText file = .ok text) files texts) :
    ∃ c, readContent t files = .ok c ∧ (Apart texts → tokens c = texts.flatMap tokens) ∧
      ((∀ text ∈ texts.dropLast, ¬ LeavesOpen text.toList) → Apart texts) ∧
      ∀ text ∈ texts, LeavesOpen text.toList ↔ ∃ next, tokens (content [text, next]) ≠ tokens text ++ tokens next :=
  ⟨content texts, readContent_eq hread, tokens_content, apart_of_not_leavesOpen, fun text _ => leavesOpen_iff_tokens text⟩

/-- A directory with two files. -/
def pages (first second : String) : FileTree where
  entries := [(["p"], .dir), (["p", "a.html"], .file first.toUTF8), (["p", "b.html"], .file second.toUTF8)]

/-- The first page mentions a class behind its attribute, the second one ends inside of an attribute. -/
theorem tokens_of_files_pages :
    let first := "<i class=\"if-home\"> class"
    let second := "= 'is-none' <b className=\"is-flex"
    let t := pages (first ++ "es") second
    ∃ c, readContent t [⟨"/p/a.html"⟩, ⟨"/p/b.html"⟩] = .ok c ∧ tokens c = ["if-home"] ∧
      LeavesOpen first.toList := by
  intro first second t
  have hread : List.Forall₂ (fun file text => t.readText file = .ok text) [⟨"/p/a.html"⟩, ⟨"/p/b.html"⟩]
      [first ++ "es", second] :=
    .cons (by decide +kernel) (.cons (by decide +kernel) .nil)
  obtain ⟨c, hc, htokens, hapart, -⟩ := tokens_of_files hread
  refine ⟨c, hc, ?_, by decide +kernel⟩
  rw [htokens (hapart (by decide +kernel))]
  decide +kernel

/-- Behind an attribute that is left open, the class of the second page is lost, and its markup is taken for classes. -/
theorem tokens_of_files_run_together :
    let texts := ["<p class=\"", "<i class=\"is-flex\">"]
    let t := pages "<p class=\"" "<i class=\"is-flex\">"
    ∃ c, readContent t [⟨"/p/a.html"⟩, ⟨"/p/b.html"⟩] = .ok c ∧ tokens c ≠ texts.flatMap tokens ∧
      tokens c = ["<i", "class="] ∧ texts.flatMap tokens = ["is-flex"] :=
  ⟨"<p class=\"\n<i class=\"is-flex\">\n", by decide +kernel, by decide +kernel, by decide +kernel,
    by decide +kernel⟩

end Markup
end UtilityCss
