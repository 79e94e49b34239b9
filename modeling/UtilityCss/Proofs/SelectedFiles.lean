import UtilityCss.Proofs.BuildFootprint
import UtilityCss.Proofs.OutputScan
import UtilityCss.Proofs.WatchedRoots
import Mathlib.Data.List.Sort

/-!
# The files that a scan selects

A scan sorts the files that it keeps by their components, each once. The list depends on which files a walk comes upon,
not on when and how often it does.
-/

namespace UtilityCss

/-! ## The order of paths -/

namespace Component

/-- The place of a kind of step among the others. -/
def rank : Component → Nat
  | root => 0
  | here => 1
  | up => 2
  | name _ => 3

/-- Steps are ordered by their kinds, and names by their characters. -/
inductive Before : Component → Component → Prop where
  | kind {c d : Component} (h : c.rank < d.rank) : Before c d
  | name {a b : String} (h : a < b) : Before (.name a) (.name b)

variable {c d e : Component}

theorem before_iff : c.Before d ↔ c.rank < d.rank ∨ ∃ a b, c = .name a ∧ d = .name b ∧ a < b := by
  constructor
  · rintro (h | h)
    · exact Or.inl h
    · exact Or.inr ⟨_, _, rfl, rfl, h⟩
  · rintro (h | ⟨a, b, rfl, rfl, h⟩)
    · exact .kind h
    · exact .name h

theorem name_before_name {a b : String} : (name a).Before (name b) ↔ a < b := by
  simp [before_iff, rank]

theorem compare_name (a b : String) :
    (name a).compare (name b) = if a < b then .lt else if a = b then .eq else .gt := rfl

theorem compare_eq_eq : c.compare d = .eq ↔ c = d := by
  cases c with
  | name a =>
      cases d with
      | name b =>
          rw [compare_name, Component.name.injEq]
          split
          · exact iff_of_false nofun (String.ne_of_lt ‹_›)
          · split
            · exact iff_of_true rfl ‹_›
            · exact iff_of_false nofun ‹_›
      | _ => simp [compare]
  | _ => cases d <;> simp [compare]

theorem compare_eq_lt : c.compare d = .lt ↔ c.Before d := by
  cases c with
  | name a =>
      cases d with
      | name b =>
          rw [compare_name, name_before_name]
          split
          · exact iff_of_true rfl ‹_›
          · split <;> exact iff_of_false nofun ‹_›
      | _ => simp [compare, before_iff, rank]
  | _ => cases d <;> simp [compare, before_iff, rank]

theorem compare_swap (c d : Component) : (c.compare d).swap = d.compare c := by
  cases c with
  | name a =>
      cases d with
      | name b =>
          rw [compare_name, compare_name]
          by_cases hab : a < b
          · rw [if_pos hab, if_neg (String.lt_asymm hab), if_neg (String.ne_of_lt hab).symm]
            rfl
          · rw [if_neg hab]
            by_cases heq : a = b
            · rw [if_pos heq, if_neg (heq ▸ String.lt_irrefl a), if_pos heq.symm]
              rfl
            · rw [if_neg heq, if_pos (Std.lt_of_le_of_ne (String.not_lt.mp hab) (Ne.symm heq))]
              rfl
      | _ => rfl
  | _ => cases d <;> rfl

theorem Before.trans (h : c.Before d) (h' : d.Before e) : c.Before e := by
  cases h with
  | kind h =>
      cases h' with
      | kind h' => exact .kind (Nat.lt_trans h h')
      | name _ => exact .kind h
  | name h =>
      cases h' with
      | kind h' => exact .kind h'
      | name h' => exact .name (String.lt_trans h h')

end Component

namespace Path

/-- Component by component, a directory before what it holds. -/
def Before (p q : Path) : Prop := List.Lex Component.Before p.components q.components

variable {cs ds : List Component} {p q r : Path}

theorem compareComponents_eq_eq : compareComponents cs ds = .eq ↔ cs = ds := by
  induction cs generalizing ds with
  | nil => cases ds <;> simp [compareComponents]
  | cons c cs ih =>
      cases ds with
      | nil => simp [compareComponents]
      | cons d ds =>
          rw [compareComponents, Ordering.then_eq_eq, Component.compare_eq_eq, ih, List.cons.injEq]

theorem compareComponents_eq_lt : compareComponents cs ds = .lt ↔ List.Lex Component.Before cs ds := by
  induction cs generalizing ds with
  | nil => cases ds <;> simp [compareComponents]
  | cons c cs ih =>
      cases ds with
      | nil => simp [compareComponents]
      | cons d ds =>
          rw [compareComponents, Ordering.then_eq_lt, Component.compare_eq_lt, Component.compare_eq_eq, ih,
            List.cons_lex_cons_iff]

theorem compareComponents_swap (cs ds : List Component) :
    (compareComponents cs ds).swap = compareComponents ds cs := by
  induction cs generalizing ds with
  | nil => cases ds <;> rfl
  | cons c cs ih =>
      cases ds with
      | nil => rfl
      | cons d ds => rw [compareComponents, compareComponents, Ordering.swap_then, Component.compare_swap, ih]

theorem le_iff : p.le q = true ↔ p.Before q ∨ p.components = q.components := by
  rw [le, Before, ← compareComponents_eq_lt, ← compareComponents_eq_eq]
  cases compareComponents p.components q.components <;> decide

theorem before_asymm (h : p.Before q) : ¬ q.Before p := by
  rw [Before, ← compareComponents_eq_lt] at h ⊢
  rw [← compareComponents_swap, h]
  nofun

instance : Std.Asymm Before := ⟨fun _ _ => before_asymm⟩

theorem Before.trans (h : p.Before q) (h' : q.Before r) : p.Before r := List.lex_trans Component.Before.trans h h'

theorem le_trans (p q r : Path) (h : p.le q = true) (h' : q.le r = true) : p.le r = true := by
  rw [le_iff] at h h' ⊢
  rcases h with h | h
  · rcases h' with h' | h'
    · exact Or.inl (h.trans h')
    · exact Or.inl (by rwa [Before, ← h'])
  · rw [Before, ← h] at h'
    exact h'

theorem le_total (p q : Path) : (p.le q || q.le p) = true := by
  rw [Bool.or_eq_true, le_iff, le_iff]
  cases h : compareComponents p.components q.components with
  | lt => exact Or.inl (Or.inl (compareComponents_eq_lt.mp h))
  | eq => exact Or.inl (Or.inr (compareComponents_eq_eq.mp h))
  | gt =>
      refine Or.inr (Or.inl (compareComponents_eq_lt.mp ?_))
      rw [← compareComponents_swap, h]
      rfl

end Path

/-! ## What is kept -/

namespace Scan

variable {s : Scan} {ps : List Path} {p q : Path} {walked : List Entry}

/-- The scan is after a file, by its path as seen from the base. -/
def Wants (s : Scan) (p : Path) : Prop :=
  ∃ relative, p.relativeTo? s.base = some relative ∧ Glob.Matches s.patterns relative.text ∧
    ¬ Glob.Matches s.ignore relative.text ∧
    (s.includePackages = true ∨ .name "node_modules" ∉ relative.components)

/-- The path leads from the base through names. -/
def IsBelow (s : Scan) (p : Path) : Prop := ∃ names, (∀ n ∈ names, IsName n) ∧ p = s.below names

theorem components_below {ns : List String} (h : ∀ n ∈ ns, IsName n) :
    (s.below ns).components = s.base.components ++ ns.map .name := by
  by_cases hne : ns = []
  · rw [hne, List.map_nil, List.append_nil]
    rfl
  · have hsteps : steps (namesPath ns).text.toList = ns.map .name := by
      rw [steps, pieces_namesPath hne h, List.filterMap_map, ← List.filterMap_eq_map]
      exact List.filterMap_congr fun n hn => (h n hn).2
    rw [below_eq_join hne h, (namesPath_ofNames hne h).components_join, hsteps]

theorem IsBelow.eq_of_components (hp : s.IsBelow p) (hq : s.IsBelow q) (h : p.components = q.components) : p = q := by
  obtain ⟨ns, hns, rfl⟩ := hp
  obtain ⟨ms, hms, rfl⟩ := hq
  rw [components_below hns, components_below hms, List.append_cancel_left_eq] at h
  rw [List.map_injective_iff.mpr (fun _ _ hname => Component.name.inj hname) h]

theorem keeps_iff {patterns ignore : Glob.PatternSet} (hpatterns : Glob.PatternSet.ofPatterns s.patterns = .ok patterns)
    (hignore : Glob.PatternSet.ofPatterns s.ignore = .ok ignore) (hp : s.IsBelow p) :
    s.keeps patterns ignore ((p.relativeTo? s.base).getD p) = true ↔ s.Wants p := by
  obtain ⟨ns, hns, rfl⟩ := hp
  have hrelative := relativeTo?_below (s := s) hns
  simp only [Wants, hrelative, Option.getD_some, Option.some.injEq, exists_eq_left', keeps, Bool.and_eq_true,
    Bool.or_eq_true, Bool.not_eq_true', ← Glob.PatternSet.isMatch_iff hpatterns, ← Glob.PatternSet.isMatch_iff hignore,
    Bool.not_eq_true, isPackagePath, Path.hasName, List.contains_eq_mem, decide_eq_false_iff_not, and_assoc]

/-! ## What is selected -/

/-- Paths with different components are sorted strictly. -/
theorem pairwise_before_mergeSort (h : (ps.map Path.components).Nodup) :
    (ps.mergeSort Path.le).Pairwise Path.Before := by
  have hsorted := List.pairwise_mergeSort Path.le_trans Path.le_total ps
  have hne : (ps.mergeSort Path.le).Pairwise fun p q => p.components ≠ q.components :=
    List.pairwise_map.mp (((List.mergeSort_perm ps Path.le).map _).nodup_iff.mpr h)
  refine (hsorted.and hne).imp fun {p q} hpq => ?_
  exact (Path.le_iff.mp hpq.1).resolve_right hpq.2

/-- What is selected among files below the base: those that are wanted, in the order of their paths. -/
structure Selected (s : Scan) (walked : List Entry) (found : List Path) : Prop where
  ordered : found.Pairwise Path.Before
  mem : ∀ p, p ∈ found ↔ .file p ∈ walked ∧ s.Wants p

theorem Selected.nodup {found : List Path} (h : s.Selected walked found) : found.Nodup := h.ordered.nodup

/-- The order is strict, so that no two lists can be selected among the same files. -/
theorem Selected.unique {found found' : List Path} {walked' : List Entry} (h : s.Selected walked found)
    (h' : s.Selected walked' found') (hfiles : ∀ p, .file p ∈ walked ↔ .file p ∈ walked') : found = found' :=
  h.ordered.eq_of_mem_iff h'.ordered fun p => by rw [h.mem, h'.mem, hfiles]

theorem mem_filterMap_file? : p ∈ walked.filterMap Entry.file? ↔ .file p ∈ walked := by
  rw [List.mem_filterMap]
  constructor
  · rintro ⟨entry, hentry, hfile⟩
    cases entry with
    | file q =>
        obtain rfl : q = p := Option.some.inj hfile
        exact hentry
    | unreadable cause => cases hfile
    | other q => cases hfile
  · exact fun h => ⟨.file p, h, rfl⟩

/-- Below the base, where a file has one path, taking the first of those with the same components loses none. -/
theorem mem_firstsBy_components (h : ∀ p ∈ ps, s.IsBelow p) : p ∈ firstsBy Path.components [] ps ↔ p ∈ ps := by
  refine ⟨fun hp => (mem_of_mem_firstsBy hp).1, fun hp => ?_⟩
  have hkey : p.components ∈ (firstsBy Path.components [] ps).map Path.components :=
    mem_map_firstsBy.mpr ⟨List.not_mem_nil, p, hp, rfl⟩
  obtain ⟨q, hq, hcomponents⟩ := List.mem_map.mp hkey
  rwa [← (h q (mem_of_mem_firstsBy hq).1).eq_of_components (h p hp) hcomponents]

theorem selected_collect {patterns ignore : Glob.PatternSet} (hne : s.patterns ≠ [])
    (hpatterns : Glob.PatternSet.ofPatterns s.patterns = .ok patterns)
    (hignore : Glob.PatternSet.ofPatterns s.ignore = .ok ignore) (hbelow : ∀ p, .file p ∈ walked → s.IsBelow p) :
    ∃ found, s.collect walked = .ok found ∧ s.Selected walked found := by
  refine ⟨_, select_ok.mpr ⟨_, _, hne, hpatterns, hignore, rfl⟩, ?_⟩
  refine ⟨pairwise_before_mergeSort (nodup_map_firstsBy Path.components _ _), fun p => ?_⟩
  have hkept : ∀ q ∈ (walked.filterMap Entry.file?).filter fun q => s.keeps patterns ignore
      ((q.relativeTo? s.base).getD q), s.IsBelow q :=
    fun q hq => hbelow q (mem_filterMap_file?.mp (List.mem_filter.mp hq).1)
  rw [List.mem_mergeSort, mem_firstsBy_components hkept, List.mem_filter, mem_filterMap_file?]
  exact and_congr_right fun hp => keeps_iff hpatterns hignore (hbelow p hp)

/-! ## The theorem -/

/-- A walk below the base may come upon its entries in any order and any number of times, and upon some that cannot be
read: the files that are selected are the same, each once and in the order of their paths. They are those that one of
the patterns matches, seen from the base, and that neither a pattern for files to pass over matches nor a package
directory holds. If a pattern of that other kind is invalid, that is said of every walk alike. -/
theorem collect_ignores_order {patterns : Glob.PatternSet} (hne : s.patterns ≠ [])
    (hpatterns : Glob.PatternSet.ofPatterns s.patterns = .ok patterns)
    (hbelow : ∀ p, .file p ∈ walked → s.IsBelow p) :
    (∃ e, Glob.PatternSet.ofPatterns s.ignore = .error e ∧ ∀ again, s.collect again = .error (.badPattern e)) ∨
      ∃ found, (∀ again, (∀ p, .file p ∈ again ↔ .file p ∈ walked) → s.collect again = .ok found) ∧
        found.Pairwise Path.Before ∧ found.Nodup ∧ ∀ p, p ∈ found ↔ .file p ∈ walked ∧ s.Wants p := by
  cases hignore : Glob.PatternSet.ofPatterns s.ignore with
  | error e =>
      exact Or.inl ⟨e, rfl, fun again => select_error.mpr (.badIgnore hne hpatterns hignore)⟩
  | ok ignore =>
      obtain ⟨found, -, hfound⟩ := selected_collect hne hpatterns hignore hbelow
      refine Or.inr ⟨found, fun again hagain => ?_, hfound.ordered, hfound.nodup, hfound.mem⟩
      obtain ⟨found', hcollect, hfound'⟩ :=
        selected_collect hne hpatterns hignore fun p hp => hbelow p ((hagain p).mp hp)
      rw [hcollect, hfound'.unique hfound hagain]

/-- However a walk comes upon two pages, among others, the one in the directory `a` is before `a-b.html`. -/
theorem collect_ignores_order_two_pages :
    let s : Scan := { base := ⟨"/p"⟩, patterns := ["*.html"], ignore := ["old.html"] }
    let walked : List Entry := [.file ⟨"/p/a-b.html"⟩, .unreadable "denied", .file ⟨"/p/node_modules/c.html"⟩,
      .other ⟨"/p/a"⟩, .file ⟨"/p/a/b.html"⟩, .file ⟨"/p/old.html"⟩, .file ⟨"/p/a-b.html"⟩]
    s.patterns ≠ [] ∧ (∃ patterns, Glob.PatternSet.ofPatterns s.patterns = .ok patterns) ∧
      (∀ p, .file p ∈ walked → s.IsBelow p) ∧
      ∀ again, (∀ p, .file p ∈ again ↔ .file p ∈ walked) →
        s.collect again = .ok [⟨"/p/a/b.html"⟩, ⟨"/p/a-b.html"⟩] := by
  intro s walked
  have hne : s.patterns ≠ [] := List.cons_ne_nil _ _
  have hparse : Glob.parse "*.html" = .ok (.many :: ".html".toList.map .literal) := by
    simp [Glob.parse, Glob.Parser.run, Glob.Parser.star, Glob.Parser.push, Glob.Parser.inGroup]
  have hpatterns := Glob.PatternSet.ofPatterns_singleton (by decide +kernel) hparse (by decide +kernel)
  have hignore : Glob.PatternSet.ofPatterns s.ignore = .ok { globs := ["old.html".toList.map .literal] } :=
    Glob.PatternSet.ofPatterns_literals (by decide) (by decide)
  have hbelow : ∀ p, .file p ∈ walked → s.IsBelow p := by
    simp only [walked, List.mem_cons, Entry.file.injEq, reduceCtorEq, List.not_mem_nil, false_or, or_false]
    rintro p (rfl | rfl | rfl | rfl | rfl)
    · exact ⟨["a-b.html"], by decide, by decide⟩
    · exact ⟨["node_modules", "c.html"], by decide, by decide⟩
    · exact ⟨["a", "b.html"], by decide, by decide⟩
    · exact ⟨["old.html"], by decide, by decide⟩
    · exact ⟨["a-b.html"], by decide, by decide⟩
  have hcollect : s.collect walked = .ok [⟨"/p/a/b.html"⟩, ⟨"/p/a-b.html"⟩] := by
    have hle : Path.le ⟨"/p/a-b.html"⟩ ⟨"/p/a/b.html"⟩ = false := by decide +kernel
    have hsort : [⟨"/p/a-b.html"⟩, ⟨"/p/a/b.html"⟩].mergeSort Path.le = [⟨"/p/a/b.html"⟩, ⟨"/p/a-b.html"⟩] := by
      simp [List.mergeSort, hle]
    refine select_ok.mpr ⟨_, _, hne, hpatterns, hignore, ?_⟩
    rw [← hsort]
    exact congrArg (List.mergeSort · Path.le) (by decide +kernel)
  refine ⟨hne, ⟨_, hpatterns⟩, hbelow, fun again hagain => ?_⟩
  rcases collect_ignores_order hne hpatterns hbelow with ⟨e, -, herror⟩ | ⟨found, hfound, -⟩
  · cases hcollect.symm.trans (herror walked)
  · rw [hfound again hagain, ← hfound walked fun _ => Iff.rfl, hcollect]

/-- No file is selected where a pattern for files to pass over is invalid. -/
theorem collect_badIgnore :
    let s : Scan := { base := ⟨"/p"⟩, patterns := ["a.html"], ignore := ["["] }
    (∃ patterns, Glob.PatternSet.ofPatterns s.patterns = .ok patterns) ∧ s.IsBelow ⟨"/p/a.html"⟩ ∧
      ∀ found, s.collect [.file ⟨"/p/a.html"⟩] ≠ .ok found := by
  intro s
  have hcollect : s.collect [.file ⟨"/p/a.html"⟩] = .error (.badPattern (.malformed "[" .unclosedSet)) := by
    decide +kernel
  refine ⟨⟨_, Glob.PatternSet.ofPatterns_literals (by decide) (by decide)⟩, ⟨["a.html"], by decide, by decide⟩, ?_⟩
  rw [hcollect]
  nofun

end Scan

end UtilityCss
