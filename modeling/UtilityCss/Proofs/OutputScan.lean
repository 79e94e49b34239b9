import UtilityCss.Project.Build
import UtilityCss.Proofs.FileChanges
import UtilityCss.Proofs.Firsts
import UtilityCss.Proofs.WatchedFiles

/-!
# Scanning over the output of a build

A scan finds the same files when directories are added and when files that it passes over are written. The files that a
build writes are passed over because of the pattern for the output directory, or because no pattern matches their names.
-/

namespace UtilityCss

/-! ## Paths below the base -/

namespace Scan

variable {s : Scan} {ns : List String} {t : FileTree}

theorem below_append (ms : List String) (n : String) : s.below (ms ++ [n]) = (s.below ms).join ⟨n⟩ := by
  rw [below, List.foldl_append]
  rfl

theorem below_eq_join (hne : ns ≠ []) (h : ∀ n ∈ ns, IsName n) : s.below ns = s.base.join (namesPath ns) := by
  induction ns using List.reverseRecOn with
  | nil => exact (hne rfl).elim
  | append_singleton ms n ih =>
      have hn := h n (List.mem_append_right _ (List.mem_singleton.mpr rfl))
      have hms : ∀ m ∈ ms, IsName m := fun m hm => h m (List.mem_append_left _ hm)
      rw [below_append]
      by_cases hnil : ms = []
      · rw [hnil, List.nil_append, namesPath_singleton]
        rfl
      · have hnames := namesPath_ofNames hnil hms
        rw [ih hnil hms, Path.join_join hnames.ne_empty hnames.getLast?_ne hnames.isAbsolute hn.isAbsolute,
          namesPath_append hnil]

/-- From the base, the way to what is below it is the path of the names. -/
theorem relativeTo?_below (h : ∀ n ∈ ns, IsName n) : (s.below ns).relativeTo? s.base = some (namesPath ns) := by
  by_cases hne : ns = []
  · rw [hne]
    exact Path.relativeTo?_self s.base
  · rw [below_eq_join hne h]
    exact Path.relativeTo?_join s.base (namesPath_ofNames hne h)

/-- Where the path of a file leads, if it leads anywhere. -/
theorem steps_below {base l : Location} (h : ∀ n ∈ ns, IsName n)
    (hbase : t.steps (Text.pieces '/' s.base.text.toList) = .ok base)
    (hl : t.steps (Text.pieces '/' (s.below ns).text.toList) = .ok l) : l = base ++ ns := by
  induction ns using List.reverseRecOn generalizing l with
  | nil =>
      have hsame : t.steps (Text.pieces '/' s.base.text.toList) = .ok l := hl
      rw [hbase] at hsame
      cases hsame
      exact (List.append_nil _).symm
  | append_singleton ms n ih =>
      have hn := h n (List.mem_append_right _ (List.mem_singleton.mpr rfl))
      rw [below_append] at hl
      obtain ⟨m, hm, hl⟩ := FileTree.steps_of_join hn.isAbsolute hl
      have hlast : l = m ++ [n] := FileTree.foldlM_names hn.steps hl
      rw [hlast, ih (fun k hk => h k (List.mem_append_left _ hk)) hm, List.append_assoc]

end Scan

/-! ## Scanning again -/

theorem filterMap_eq_of_filter {α β : Type} {xs ys : List α} {p : α → Bool} {f : α → Option β}
    (h : xs.filter p = ys.filter p) (hf : ∀ x, p x = false → f x = none) : xs.filterMap f = ys.filterMap f := by
  have hkey (zs : List α) : zs.filterMap f = (zs.filter p).filterMap f := by
    rw [List.filterMap_filter]
    refine List.filterMap_congr fun x _ => ?_
    cases hp : p x
    · simpa using hf x hp
    · rfl
  rw [hkey xs, h, ← hkey ys]

namespace FileTree

variable {t t' : FileTree} {ls : List Location} {base : Location}

theorem filesBelow_eq (t : FileTree) (base : Location) :
    t.filesBelow base = t.files.filterMap fun e => Text.rest? base e.1 := by
  rw [filesBelow, files, List.filterMap_filterMap]
  refine List.filterMap_congr fun e _ => ?_
  obtain ⟨l, n⟩ := e
  cases n <;> rfl

theorem filter_filesBelow_eq {p : Location → Bool} (h : t'.files.filter (·.1 ∉ ls) = t.files.filter (·.1 ∉ ls))
    (hp : ∀ ns, base ++ ns ∈ ls → p ns = false) :
    (t'.filesBelow base).filter p = (t.filesBelow base).filter p := by
  rw [filesBelow_eq, filesBelow_eq, List.filter_filterMap, List.filter_filterMap]
  refine filterMap_eq_of_filter h fun e he => ?_
  cases hr : Text.rest? base e.1 with
  | none => rfl
  | some ns =>
      have hl : e.1 ∈ ls := by simpa using he
      rw [Text.rest?_eq_some.mp hr] at hl
      simp [Option.filter, hp ns hl]

end FileTree

namespace Ignore

theorem all_eq (t : FileTree) : all t = t.files.filterMap fun e =>
    if e.1.getLast? = some fileName then some (e.1.dropLast, rulesOf e.2) else none := by
  rw [all, FileTree.files, List.filterMap_filterMap]
  refine List.filterMap_congr fun e _ => ?_
  obtain ⟨l, n⟩ := e
  cases n <;> rfl

end Ignore

namespace Scan

variable {s : Scan} {t t' : FileTree} {base : Location} {ls : List Location}

theorem select_ok {ps found : List Path} : s.select ps = .ok found ↔ ∃ patterns ignore, s.patterns ≠ [] ∧
    Glob.PatternSet.ofPatterns s.patterns = .ok patterns ∧ Glob.PatternSet.ofPatterns s.ignore = .ok ignore ∧
    found = (firstsBy Path.components []
      (ps.filter fun p => s.keeps patterns ignore ((p.relativeTo? s.base).getD p))).mergeSort Path.le := by
  constructor
  · intro h
    unfold select at h
    split at h
    · cases h
    · rename_i hne
      split at h
      · cases h
      · split at h
        · cases h
        · cases h
          exact ⟨_, _, fun hnil => hne (List.isEmpty_iff.mpr hnil), ‹_›, ‹_›, by rw [Path.distinct_eq_firstsBy]⟩
  · rintro ⟨patterns, ignore, hne, hpatterns, hignore, rfl⟩
    rw [select, if_neg (by simpa using hne), hpatterns, hignore, ← Path.distinct_eq_firstsBy]

/-- A scan finds the same files, whatever is written to files that it passes over and that are no ignore files. -/
theorem files_eq (hbase : t.node s.base = .ok (base, .dir)) (hbase' : t'.node s.base = .ok (base, .dir))
    (hfiles : t'.files.filter (·.1 ∉ ls) = t.files.filter (·.1 ∉ ls))
    (hignore : ∀ l ∈ ls, l.getLast? ≠ some Ignore.fileName)
    (hkeeps : ∀ patterns ignore, Glob.PatternSet.ofPatterns s.patterns = .ok patterns →
      Glob.PatternSet.ofPatterns s.ignore = .ok ignore → ∀ ns, base ++ ns ∈ ls →
      s.keeps patterns ignore (((s.below ns).relativeTo? s.base).getD (s.below ns)) = false) :
    s.files t' = s.files t := by
  have hall : Ignore.all t' = Ignore.all t := by
    rw [Ignore.all_eq, Ignore.all_eq]
    refine filterMap_eq_of_filter hfiles fun e he => if_neg (hignore e.1 ?_)
    simpa using he
  rw [files_eq_select, files_eq_select]
  unfold select
  split
  · rfl
  · cases hp : Glob.PatternSet.ofPatterns s.patterns with
    | error e => rfl
    | ok patterns =>
        cases hi : Glob.PatternSet.ofPatterns s.ignore with
        | error e => rfl
        | ok ignore =>
            have hkept : (s.walk t').filter (fun p => s.keeps patterns ignore ((p.relativeTo? s.base).getD p)) =
                (s.walk t).filter fun p => s.keeps patterns ignore ((p.relativeTo? s.base).getD p) := by
              simp only [walk, hbase, hbase', Ignore.visibleFiles, hall, List.filter_map, List.filter_filter]
              refine congrArg _ (FileTree.filter_filesBelow_eq hfiles fun ns hns => ?_)
              simp only [Function.comp_apply, hkeeps patterns ignore hp hi ns hns, Bool.false_and]
            simp only [hkept]

end Scan

/-! ## The output of a build -/

/-- An output directory that is given by names, in characters that a pattern takes as they are. -/
structure NamedOutput (dir : Path) : Prop where
  relative : dir.isAbsolute = false
  names : (⟨String.ofList (outputText dir)⟩ : Path).OfNames
  literal : (outputText dir).any Glob.isSpecial = false

def outputNames (dir : Path) : List String := (Text.pieces '/' (outputText dir)).map String.ofList

namespace NamedOutput

variable {dir : Path} {n : String}

theorem piece (h : NamedOutput dir) :
    ∀ x ∈ Text.pieces '/' (outputText dir), x ≠ [] ∧ x ≠ ['.'] ∧ x ≠ ['.', '.'] :=
  fun x hx => h.names x (by rwa [String.toList_ofList])

theorem not_filler (h : NamedOutput dir) : ∀ x ∈ Text.pieces '/' (outputText dir), Component.isFiller x = false :=
  fun x hx => h.names.not_filler x (by rwa [String.toList_ofList])

/-- The root plays no part in the pattern of the directory. -/
theorem plain (h : NamedOutput dir) : PlainOutput ⟨"/"⟩ dir := ⟨h.relative, h.not_filler, h.literal, nofun⟩

theorem steps (h : NamedOutput dir) : UtilityCss.steps dir.text.toList = (outputNames dir).map .name := by
  rw [← steps_outputText, UtilityCss.steps, outputNames, List.map_map]
  refine List.filterMap_eq_map_iff_forall_eq_some.mpr fun x hx => ?_
  obtain ⟨hnil, hdot, hup⟩ := h.piece x hx
  rw [Component.ofPiece?, if_neg (not_or.mpr ⟨hnil, hdot⟩), if_neg hup]
  rfl

theorem names_ne_nil (dir : Path) : outputNames dir ≠ [] :=
  fun hnil => Text.pieces_ne_nil _ _ (List.map_eq_nil_iff.mp hnil)

theorem toList_namesPath (dir : Path) : (namesPath (outputNames dir)).text.toList = outputText dir := by
  have hpieces : (outputNames dir).map String.toList = Text.pieces '/' (outputText dir) := by
    rw [outputNames, List.map_map]
    exact (List.map_congr_left fun x _ => String.toList_ofList).trans (List.map_id _)
  rw [namesPath, String.toList_ofList, hpieces, Text.joinPieces_pieces]

/-- What is in the output directory matches its pattern. -/
theorem ignored (h : NamedOutput dir) (n : String) {ignore : Glob.PatternSet}
    (hi : Glob.PatternSet.ofPatterns (Config.outputIgnores dir) = .ok ignore) :
    ignore.isMatch (namesPath (outputNames dir ++ [n])).text = true := by
  rw [h.plain.outputIgnores, Glob.PatternSet.ofPatterns_below h.literal (h.plain.dropHere_append _)] at hi
  cases hi
  rw [Glob.PatternSet.isMatch_singleton, Glob.accepts_below _ h.plain.ne_nil, namesPath_append (names_ne_nil dir)]
  exact ⟨n.toList, by simp [toList_namesPath]⟩

/-- Where a file of the output directory is, seen from where the directory is. -/
theorem locate (h : NamedOutput dir) (hn : IsName n) {t : FileTree} {root : Path} {base l : Location}
    (hbase : t.locate root = .ok base) (hl : t.locate (root.join (dir.join ⟨n⟩)) = .ok l) :
    l = base ++ (outputNames dir ++ [n]) := by
  refine FileTree.locate_join (Path.isAbsolute_join h.relative hn.isAbsolute) hbase ?_ hl
  rw [Path.steps_join hn.isAbsolute, h.steps, hn.steps, List.map_append]
  rfl

end NamedOutput

namespace Build

theorem exists_generated {b : Build} {g : Path} (hg : g ∈ [b.config.cssPath, b.config.fontPath]) :
    ∃ n ∈ [Config.cssName, Config.fontName], IsName n ∧ g = b.config.outputDir.join ⟨n⟩ := by
  rcases List.mem_pair.mp hg with rfl | rfl
  · exact ⟨Config.cssName, List.mem_cons_self, by decide, rfl⟩
  · exact ⟨Config.fontName, List.mem_cons_of_mem _ List.mem_cons_self, by decide, rfl⟩

/-- Whether no scan of `t` finds what the build writes: the output directory is one that its pattern passes over, or
the generated files are not asked for where they are. -/
inductive OutputApart (b : Build) (t : FileTree) : Prop
  | named (h : NamedOutput b.config.outputDir)
  | unmatched (h : ∀ patterns, Glob.PatternSet.ofPatterns b.globs = .ok patterns →
      ∀ g ∈ [b.config.cssPath, b.config.fontPath], ∀ base ns, t.locate b.root = .ok base →
        t.locate (b.root.join g) = .ok (base ++ ns) → patterns.isMatch (namesPath ns).text = false)

/-- A build may write into the directory of the project if nothing there is asked for that has the name of a generated
file. -/
theorem OutputApart.of_here {b : Build} {t : FileTree} (hrelative : b.config.outputDir.isAbsolute = false)
    (hhere : outputText b.config.outputDir = [] ∨ outputText b.config.outputDir = ['.'])
    (hunmatched : ∀ patterns, Glob.PatternSet.ofPatterns b.globs = .ok patterns →
      ∀ n ∈ [Config.cssName, Config.fontName], patterns.isMatch n = false) : b.OutputApart t := by
  refine .unmatched fun patterns hp g hg base ns hbase hl => ?_
  obtain ⟨n, hn, hname, rfl⟩ := exists_generated hg
  have hsteps : steps b.config.outputDir.text.toList = [] := by
    rw [← steps_outputText]
    rcases hhere with hhere | hhere <;> rw [hhere] <;> rfl
  have hns : base ++ ns = base ++ [n] := by
    refine FileTree.locate_join (Path.isAbsolute_join hrelative hname.isAbsolute) hbase ?_ hl
    rw [Path.steps_join hname.isAbsolute, hsteps, hname.steps]
    rfl
  rw [List.append_cancel_left hns, namesPath_singleton]
  exact hunmatched patterns hp n hn

theorem OutputApart.keeps_eq_false {b : Build} {t : FileTree} (h : b.OutputApart t) {g : Path} {base ns : Location}
    (hg : g ∈ [b.config.cssPath, b.config.fontPath]) (hbase : t.locate b.root = .ok base)
    (hl : t.locate (b.root.join g) = .ok (base ++ ns)) {patterns ignore : Glob.PatternSet}
    (hp : Glob.PatternSet.ofPatterns b.scan.patterns = .ok patterns)
    (hi : Glob.PatternSet.ofPatterns b.scan.ignore = .ok ignore) :
    b.scan.keeps patterns ignore (namesPath ns) = false := by
  cases h with
  | named hnamed =>
      obtain ⟨n, -, hn, rfl⟩ := exists_generated hg
      rw [List.append_cancel_left (hnamed.locate hn hbase hl), Scan.keeps, hnamed.ignored n hi, Bool.not_true,
        Bool.and_false, Bool.false_and]
  | unmatched hunmatched =>
      rw [Scan.keeps, hunmatched patterns hp g hg base ns hbase hl, Bool.false_and, Bool.false_and]

end Build

end UtilityCss
