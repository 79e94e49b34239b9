import UtilityCss.Project.Build
import UtilityCss.Watch.Filter
import UtilityCss.Proofs.DirectoryPatterns
import UtilityCss.Proofs.PathSteps
import Mathlib.Data.List.Induction

/-!
# The files that are watched and the files that are scanned

A build passes over its output by a pattern, a watch by the path of the directory. For a directory whose text can be
read as a pattern, the two pass over the same files, so that a watch wants exactly the files that a build scans.
-/

namespace UtilityCss

/-! ## The output directory -/

/-- The text of an output directory that its pattern starts with. -/
def outputText (dir : Path) : List Char := Glob.dropHere (dir.text.toList.reverse.dropWhile (· = '/')).reverse

theorem steps_dropHere (s : List Char) : steps (Glob.dropHere s) = steps s := by
  fun_induction Glob.dropHere s with
  | case1 s ih => exact ih.trans (steps_append ['.'] s).symm
  | case2 => rfl

theorem steps_outputText (dir : Path) : steps (outputText dir) = steps dir.text.toList := by
  rw [outputText, steps_dropHere]
  induction dir.text.toList using List.reverseRecOn with
  | nil => rfl
  | append_singleton s c ih =>
      rw [List.reverse_append, List.reverse_singleton, List.singleton_append]
      by_cases hc : c = '/'
      · rw [List.dropWhile_cons_of_pos (by simpa using hc), ih, hc, steps_slash]
      · rw [List.dropWhile_cons_of_neg (by simpa using hc), List.reverse_cons, List.reverse_reverse]

/-- An output directory, given from `root` by its steps alone, in characters that a pattern takes as they are. -/
structure PlainOutput (root dir : Path) : Prop where
  relative : dir.isAbsolute = false
  steps : ∀ x ∈ Text.pieces '/' (outputText dir), Component.isFiller x = false
  literal : (outputText dir).any Glob.isSpecial = false
  /-- Behind an empty root, a leading `.` would be a step. -/
  head : root.text = "" → dir.parts.1 = none

namespace PlainOutput

variable {root dir : Path}

theorem ne_nil (h : PlainOutput root dir) : outputText dir ≠ [] := by
  intro hnil
  have hf := h.steps [] (by rw [hnil]; exact List.mem_cons_self)
  cases hf

theorem ne_here (h : PlainOutput root dir) : outputText dir ≠ ['.'] := by
  intro hdot
  have hf := h.steps ['.'] (by rw [hdot]; exact List.mem_cons_self)
  cases hf

theorem dropHere_append (h : PlainOutput root dir) (s : List Char) :
    Glob.dropHere (outputText dir ++ s) = outputText dir ++ s := by
  unfold Glob.dropHere
  split
  · rename_i r heq
    -- The text would be a dot, or start with a dot and a slash.
    rcases List.append_eq_cons_iff.mp heq with ⟨hnil, -⟩ | ⟨t, ht, hts⟩
    · exact (h.ne_nil hnil).elim
    · rcases List.append_eq_cons_iff.mp hts.symm with ⟨hnil, -⟩ | ⟨u, hu, -⟩
      · exact (h.ne_here (by rw [ht, hnil])).elim
      · have hf := h.steps ['.'] (by rw [ht, hu]; exact List.mem_cons_self)
        cases hf
  · rfl

theorem outputIgnores (h : PlainOutput root dir) :
    Config.outputIgnores dir = [String.ofList (outputText dir) ++ "/**"] := by
  have hne : ¬ (outputText dir = [] ∨ outputText dir = ['.']) := not_or.mpr ⟨h.ne_nil, h.ne_here⟩
  unfold Config.outputIgnores
  rw [h.relative]
  exact if_neg hne

theorem components_join (h : PlainOutput root dir) :
    (root.join dir).components = root.components ++ UtilityCss.steps (outputText dir) := by
  rw [Path.components_join h.relative h.head, steps_outputText]

/-- A path of names is in the output directory exactly if it starts with the pieces of that directory. -/
theorem isWithin_iff (h : PlainOutput root dir) {p : Path} (hp : p.OfNames) :
    (root.join p).isWithin (root.join dir) = true ↔
      Text.pieces '/' (outputText dir) <+: Text.pieces '/' p.text.toList := by
  rw [Path.isWithin, List.isPrefixOf_iff_prefix, h.components_join, hp.components_join,
    List.prefix_append_right_inj]
  exact Component.filterMap_isPrefix_iff h.steps hp.not_filler

theorem same_of_pieces (h : PlainOutput root dir) {p : Path} (hp : p.OfNames)
    (he : Text.pieces '/' p.text.toList = Text.pieces '/' (outputText dir)) :
    (root.join p).same (root.join dir) = true := by
  rw [Path.same, beq_iff_eq, h.components_join, hp.components_join, UtilityCss.steps, UtilityCss.steps, he]

/-- The pattern and the path of an output directory agree on everything but the directory itself. -/
theorem isMatch_eq_isWithin (h : PlainOutput root dir) {p : Path} (hp : p.OfNames) {ignore : Glob.PatternSet}
    (hi : Glob.PatternSet.ofPatterns (Config.outputIgnores dir) = .ok ignore)
    (hne : (root.join p).same (root.join dir) = false) :
    ignore.isMatch p.text = (root.join p).isWithin (root.join dir) := by
  rw [h.outputIgnores, Glob.PatternSet.ofPatterns_below h.literal (h.dropHere_append _)] at hi
  cases hi
  rw [Bool.eq_iff_iff, h.isWithin_iff hp, Glob.PatternSet.isMatch_singleton, Glob.accepts_below _ h.ne_nil,
    Text.append_cut_isPrefix_iff]
  constructor
  · rintro ⟨ps, -, hps⟩
    exact ⟨ps, hps.symm⟩
  · rintro ⟨ps, hps⟩
    refine ⟨ps, ?_, hps.symm⟩
    rintro rfl
    rw [List.append_nil] at hps
    rw [h.same_of_pieces hp hps.symm] at hne
    cases hne

end PlainOutput

/-! ## Watching and scanning -/

namespace Watch.Filter

theorem ofConfig_ok (root configPath : Path) (c : Config) (glob : Option String) {content : Glob.PatternSet}
    (h : Glob.PatternSet.ofPatterns (c.globsFor glob) = .ok content) :
    ofConfig root configPath c glob =
      .ok { root, configPath, outputDir := root.join c.outputDir, content
            roots := (watchRoots (c.globsFor glob)).map root.join } := by
  simp only [ofConfig, h]

/-- What a watch wants of the files below the root. -/
theorem wantsPath_join {root configPath : Path} {c : Config} {glob : Option String} {f : Filter}
    (hf : ofConfig root configPath c glob = .ok f) {p : Path} (hp : p.OfNames)
    (hc : (root.join p).same configPath = false) :
    f.wantsPath (root.join p) =
      (!(root.join p).isWithin (root.join c.outputDir) && (!isPackagePath p && f.content.isMatch p.text)) := by
  unfold ofConfig at hf
  split at hf <;> cases hf
  simp only [wantsPath, hc, Bool.false_eq_true, ↓reduceIte, Path.relativeTo?_join root hp, Option.getD_some]
  cases (root.join p).isWithin (root.join c.outputDir) <;> rfl

/-- Below the root, a watch wants exactly the files that a build scans. The file is not the configuration file, and the
output directory is either plain and another path, or absolute and does not hold the file. -/
theorem wantsPath_eq_keeps {root configPath : Path} {c : Config} {glob : Option String} {f : Filter}
    {ignore : Glob.PatternSet} (hf : ofConfig root configPath c glob = .ok f)
    (hi : Glob.PatternSet.ofPatterns (Config.outputIgnores c.outputDir) = .ok ignore) {p : Path} (hp : p.OfNames)
    (hc : (root.join p).same configPath = false)
    (hd : PlainOutput root c.outputDir ∧ (root.join p).same (root.join c.outputDir) = false ∨
      c.outputDir.isAbsolute = true ∧ (root.join p).isWithin c.outputDir = false) (subsetter : Font.Subsetter) :
    f.wantsPath (root.join p) =
      (Build.scan { root, config := c, globs := c.globsFor glob, subsetter }).keeps f.content ignore p := by
  have hout : ignore.isMatch p.text = (root.join p).isWithin (root.join c.outputDir) := by
    rcases hd with ⟨hplain, hne⟩ | ⟨habs, hnot⟩
    · exact hplain.isMatch_eq_isWithin hp hi hne
    · have hjoin : root.join c.outputDir = c.outputDir := by rw [Path.join, if_pos habs]
      have hnone : Config.outputIgnores c.outputDir = [] := by rw [Config.outputIgnores, if_pos habs]
      rw [hnone] at hi
      cases hi
      rw [hjoin, hnot]
      rfl
  rw [wantsPath_join hf hp hc, Scan.keeps, hout]
  simp only [Build.scan, Bool.false_or]
  cases f.content.isMatch p.text <;> cases isPackagePath p <;>
    cases (root.join p).isWithin (root.join c.outputDir) <;> rfl

/-- A page next to the usual output directory is watched and scanned. -/
theorem wantsPath_eq_keeps_page :
    let root : Path := ⟨"/project"⟩
    let configPath : Path := ⟨"/project/iconforge.toml"⟩
    let c : Config := { content := ["index.html"] }
    let p : Path := ⟨"index.html"⟩
    ∃ f ignore, ofConfig root configPath c none = .ok f ∧
      Glob.PatternSet.ofPatterns (Config.outputIgnores c.outputDir) = .ok ignore ∧
      f.wantsPath (root.join p) = true ∧
      f.wantsPath (root.join p) =
        (Build.scan { root, config := c, globs := c.globsFor none, subsetter := Font.unsupported }).keeps
          f.content ignore p := by
  intro root configPath c p
  have hcontent : Glob.PatternSet.ofPatterns ["index.html"] = .ok { globs := ["index.html".toList.map .literal] } :=
    Glob.PatternSet.ofPatterns_literals (by decide) (by decide)
  have hf := ofConfig_ok root configPath c none hcontent
  have hplain : PlainOutput root c.outputDir := ⟨by decide, by decide, by decide, by decide⟩
  have hi : Glob.PatternSet.ofPatterns (Config.outputIgnores c.outputDir) = _ :=
    hplain.outputIgnores ▸ Glob.PatternSet.ofPatterns_below hplain.literal (hplain.dropHere_append _)
  have hp : p.OfNames := by decide
  refine ⟨_, _, hf, hi, ?_, wantsPath_eq_keeps hf hi hp (by decide) (Or.inl ⟨hplain, by decide⟩) Font.unsupported⟩
  rw [wantsPath_join hf hp (by decide)]
  decide +kernel

/-- With the project's own directory as output directory, a build scans a page that a watch does not want. -/
theorem wantsPath_ne_keeps_projectOutput :
    let root : Path := ⟨"/project"⟩
    let configPath : Path := ⟨"/project/iconforge.toml"⟩
    let c : Config := { content := ["index.html"], outputDir := ⟨"."⟩ }
    let p : Path := ⟨"index.html"⟩
    ∃ f ignore, ofConfig root configPath c none = .ok f ∧
      Glob.PatternSet.ofPatterns (Config.outputIgnores c.outputDir) = .ok ignore ∧
      (root.join p).same configPath = false ∧ f.wantsPath (root.join p) = false ∧
      (Build.scan { root, config := c, globs := c.globsFor none, subsetter := Font.unsupported }).keeps
        f.content ignore p = true := by
  intro root configPath c p
  have hcontent : Glob.PatternSet.ofPatterns ["index.html"] = .ok { globs := ["index.html".toList.map .literal] } :=
    Glob.PatternSet.ofPatterns_literals (by decide) (by decide)
  have hf := ofConfig_ok root configPath c none hcontent
  have hnone : Config.outputIgnores c.outputDir = [] := by decide
  refine ⟨_, {}, hf, by rw [hnone]; rfl, by decide, ?_, by decide +kernel⟩
  rw [wantsPath_join hf (by decide) (by decide)]
  decide +kernel

end Watch.Filter

end UtilityCss
