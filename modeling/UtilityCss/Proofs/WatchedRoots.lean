import UtilityCss.Watch.Filter
import UtilityCss.Proofs.Firsts
import UtilityCss.Proofs.LiteralFront
import UtilityCss.Proofs.PathSteps

/-!
# The watched directories hold what the patterns match

The directory that is watched for a pattern is cut out of the text in front of the first character with a meaning of its
own. Every path that the pattern matches begins with that text, so it lies in the directory. A backslash is read in two
ways: for a directory it cuts, in a pattern it takes away the meaning of what follows. The text in front is therefore
free of it.
-/

namespace UtilityCss

open Glob

namespace Path

theorem isWithin_self (p : Path) : p.isWithin p = true := List.isPrefixOf_iff_prefix.mpr List.prefix_rfl

theorem isWithin_of_same {p dir dir' : Path} (h : dir'.same dir = true) (hp : p.isWithin dir = true) :
    p.isWithin dir' = true := by
  rw [same, beq_iff_eq] at h
  rwa [isWithin, h]

theorem isWithin_of_slash {p dir : Path} {s : List Char} (hd : dir.text.toList ≠ [])
    (hp : p.text.toList = dir.text.toList ++ '/' :: s) : p.isWithin dir = true := by
  rw [isWithin, List.isPrefixOf_iff_prefix, components_eq, components_eq, parts_append hd hp, List.filterMap_append,
    ← List.append_assoc]
  exact List.prefix_append _ _

end Path

/-! ## The text in front of a pattern -/

namespace Glob

theorem Parser.run_close {p : Parser} (hp : p.groups = []) (s : List Char) :
    p.run ('\x7d' :: s) = .error .unopenedGroup := by
  rw [run.eq_def]
  simp [closeGroup, hp]

/-- In front of the first character that a directory is cut at, only a backslash or a closing brace is special. -/
theorem isSpecial_of_not_isMeta {c : Char} (h : Watch.isMeta c = false) (hb : c ≠ '\\') (hc : c ≠ '\x7d') :
    isSpecial c = false := by
  simp only [Watch.isMeta, Bool.or_eq_false_iff, decide_eq_false_iff_not] at h
  simp [isSpecial, h, hb, hc]

theorem literal_of_run {p : Parser} {cs s : List Char} {ts : List Glob.Token} (hp : p.groups = [])
    (hm : ∀ c ∈ cs, Watch.isMeta c = false) (hb : '\\' ∉ cs) (h : p.run (cs ++ s) = .ok ts) :
    cs.any isSpecial = false := by
  induction cs generalizing p with
  | nil => rfl
  | cons c cs ih =>
      obtain ⟨hne, hb⟩ := not_or.mp (mt List.mem_cons.mpr hb)
      by_cases hclose : c = '\x7d'
      · rw [hclose, List.cons_append, Parser.run_close hp] at h
        cases h
      · have hc := isSpecial_of_not_isMeta (hm c List.mem_cons_self) (Ne.symm hne) hclose
        rw [List.cons_append, Parser.run_literal hp hc] at h
        rw [List.any_cons, hc, Bool.false_or]
        exact ih (p := p.push [.literal c] c) hp (fun d hd => hm d (List.mem_cons_of_mem _ hd)) hb h

end Glob

/-! ## The directory of a pattern -/

namespace Watch

/-- The part of a pattern that its directory is cut out of. -/
def front (pattern : String) : List Char := pattern.toList.takeWhile (!isMeta ·)

theorem isMeta_of_mem_front {pattern : String} {c : Char} (h : c ∈ front pattern) : isMeta c = false := by
  simpa using List.mem_takeWhile_imp h

theorem front_append (pattern : String) : ∃ s, pattern = String.ofList (front pattern ++ s) :=
  ⟨pattern.toList.dropWhile (!isMeta ·), by rw [front, List.takeWhile_append_dropWhile, String.ofList_toList]⟩

theorem front_eq {pattern : String} (h : pattern.toList.any isMeta = false) : front pattern = pattern.toList := by
  refine List.takeWhile_eq_self_iff.mpr fun c hc => ?_
  simpa using List.any_eq_false.mp h c hc

variable {pattern : String} {ts : List Glob.Token} {o : Options} {p : Path}

theorem front_literal (hp : parse pattern = .ok ts) (hb : '\\' ∉ front pattern) :
    (front pattern).any isSpecial = false := by
  obtain ⟨s, hs⟩ := front_append pattern
  have hrun : Parser.run {} (front pattern ++ s) = .ok ts := by
    rw [← hp, parse]
    conv => rhs; rw [hs, String.toList_ofList]
  exact literal_of_run rfl (fun c => isMeta_of_mem_front) hb hrun

theorem front_isPrefix (hp : parse pattern = .ok ts) (hb : '\\' ∉ front pattern)
    (h : accepts o ts p.text = true) : front pattern <+: p.text.toList := by
  obtain ⟨s, hs⟩ := front_append pattern
  exact accepts_isPrefix (front_literal hp hb) (hs ▸ hp) h

/-- A directory stands before a slash of its text, unless it is the directory that the text is read from. -/
theorem directory_cases {s : List Char} (hb : '\\' ∉ s) :
    directory s = ['.'] ∨ directory s ≠ [] ∧ ∃ e, s = directory s ++ '/' :: e := by
  unfold directory
  split
  · exact .inl rfl
  · exact .inl rfl
  · rename_i c before hbefore heq
    obtain ⟨e, hs⟩ : ∃ e, s.reverse = e ++ c :: before :=
      ⟨_, (heq ▸ List.takeWhile_append_dropWhile).symm⟩
    have hhead : s.reverse.dropWhile (fun c => !(c = '/' || c = '\\')) ≠ [] := heq ▸ List.cons_ne_nil _ _
    have hcut := List.head_dropWhile_not _ hhead
    simp only [heq, List.head_cons, Bool.not_eq_false', Bool.or_eq_true, decide_eq_true_eq] at hcut
    have hne : c ≠ '\\' := fun hc => hb (List.mem_reverse.mp (by simp [hs, hc]))
    obtain rfl : c = '/' := hcut.resolve_right hne
    refine .inr ⟨by simpa using hbefore, e.reverse, ?_⟩
    rw [← List.reverse_inj, hs]
    simp

/-- A text and what goes on behind it lie in the directory of the text. -/
theorem directory_isWithin {s : List Char} (hb : '\\' ∉ s) (h : s <+: p.text.toList) :
    directory s = ['.'] ∨ p.isWithin ⟨String.ofList (directory s)⟩ = true := by
  refine (directory_cases hb).imp_right fun ⟨hne, e, hs⟩ => ?_
  obtain ⟨r, hr⟩ := h
  refine Path.isWithin_of_slash (s := e ++ r) (by simpa using hne) ?_
  rw [String.toList_ofList, ← hr]
  conv => lhs; rw [hs]
  rw [List.append_assoc, List.cons_append]

/-- What a pattern matches lies in the directory that is watched for it. -/
theorem globRoot_isWithin (hp : parse pattern = .ok ts) (hb : '\\' ∉ front pattern)
    (h : accepts o ts p.text = true) : globRoot pattern = ⟨"."⟩ ∨ p.isWithin (globRoot pattern) = true := by
  have hdir {s : List Char} (hs : s = front pattern) :
      (⟨String.ofList (directory s)⟩ : Path) = ⟨"."⟩ ∨ p.isWithin ⟨String.ofList (directory s)⟩ = true := by
    subst hs
    exact (directory_isWithin hb (front_isPrefix hp hb h)).imp_left fun hd => by rw [hd]
  unfold globRoot
  dsimp only
  split
  · exact hdir rfl
  · rename_i hmeta
    have hfront := front_eq (Bool.eq_false_iff.mpr hmeta)
    split
    · -- The whole pattern is the directory, and it matches nothing but its own text.
      rw [parse_literals (hfront ▸ front_literal hp hb)] at hp
      cases hp
      have htext : p.text = pattern := String.toList_inj.mp (accepts_literals h)
      obtain rfl : p = ⟨pattern⟩ := by rw [← htext]
      exact .inr (Path.isWithin_self _)
    · exact hdir hfront.symm

/-! ## All patterns -/

theorem exists_same_distinct {ps : List Path} {q : Path} (h : q ∈ ps) :
    ∃ dir ∈ Path.distinct ps, dir.same q = true := by
  rw [Path.distinct_eq_firstsBy]
  have hkey : q.components ∈ (firstsBy Path.components [] ps).map Path.components :=
    mem_map_firstsBy.mpr ⟨List.not_mem_nil, q, h, rfl⟩
  obtain ⟨dir, hdir, hcomponents⟩ := List.mem_map.mp hkey
  exact ⟨dir, hdir, beq_iff_eq.mpr hcomponents⟩

/-- Every path that the patterns match lies in a watched directory, if no pattern takes away the meaning of a character
in front of the first one that has a meaning. -/
theorem watchRoots_cover {patterns : List String} {set : PatternSet} (h : PatternSet.ofPatterns patterns = .ok set)
    (hb : ∀ pattern ∈ patterns, '\\' ∉ front (normalize pattern)) {p : Path} (hm : set.isMatch p.text = true) :
    ∃ dir ∈ watchRoots patterns, dir.same ⟨"."⟩ = true ∨ p.isWithin dir = true := by
  obtain ⟨pattern, hmem, ts, hp, hts⟩ := (PatternSet.isMatch_iff h).mp hm
  obtain ⟨dir, hdir, hsame⟩ := exists_same_distinct (List.mem_map.mpr ⟨pattern, hmem, rfl⟩)
  refine ⟨dir, hdir, ?_⟩
  rcases globRoot_isWithin hp (hb pattern hmem) hts with hroot | hin
  · exact .inl (hroot ▸ hsame)
  · exact .inr (Path.isWithin_of_same hsame hin)

/-- Pages below a directory, whatever directories are in between. -/
theorem watchRoots_cover_pages :
    let patterns := ["pages/**/*.html"]
    let p : Path := ⟨"pages/guide/start.html"⟩
    ∃ set, PatternSet.ofPatterns patterns = .ok set ∧ (∀ pattern ∈ patterns, '\\' ∉ front (normalize pattern)) ∧
      set.isMatch p.text = true ∧
      ∃ dir ∈ watchRoots patterns, dir.same ⟨"."⟩ = true ∨ p.isWithin dir = true := by
  intro patterns p
  have hp : parse "pages/**/*.html" =
      .ok ("pages".toList.map .literal ++ .deepMiddle :: .many :: ".html".toList.map .literal) := by
    simp [parse, Parser.run, Parser.star, Parser.stars, Parser.deepen, Parser.push, Parser.inGroup]
  have hset := PatternSet.ofPatterns_singleton (by decide +kernel) hp (by decide +kernel)
  have hb : ∀ pattern ∈ patterns, '\\' ∉ front (normalize pattern) := by decide +kernel
  exact ⟨_, hset, hb, by decide +kernel, watchRoots_cover hset hb (by decide +kernel)⟩

/-- A directory whose name has a bracket in it: the pattern matches a page in there, and another directory is
watched. -/
theorem watchRoots_miss_escaped :
    let patterns := ["docs\\[1\\]/*.html"]
    let p : Path := ⟨"docs[1]/index.html"⟩
    ∃ set, PatternSet.ofPatterns patterns = .ok set ∧ set.isMatch p.text = true ∧
      p.components = [.name "docs[1]", .name "index.html"] ∧
      ∀ dir ∈ watchRoots patterns, dir.same ⟨"."⟩ = false ∧ p.isWithin dir = false := by
  intro patterns p
  have hp : parse "docs\\[1\\]/*.html" =
      .ok ("docs[1]/".toList.map .literal ++ .many :: ".html".toList.map .literal) := by
    simp [parse, Parser.run, Parser.star, Parser.push, Parser.inGroup]
  have hset := PatternSet.ofPatterns_singleton (by decide +kernel) hp (by decide +kernel)
  exact ⟨_, hset, by decide +kernel, by decide +kernel, by decide +kernel⟩

end Watch
end UtilityCss
