import UtilityCss.Proofs.BuildRuns
import UtilityCss.Proofs.NewDirectories

/-!
# What a build touches

A build that refuses its patterns, a file or a document has not touched the tree. Whatever else happens, nothing changes
but that missing directories come up on the way of the output directory and that the stylesheet and the font are
written. The subsetter decides what is in the font, not whether the build succeeds.
-/

namespace UtilityCss

/-! ## What is refused -/

/-- How the documents of a directory cannot be loaded. -/
inductive Metadata.Unloadable (t : FileTree) (dir : Path) : MetadataError → Prop where
  | noIcons {e : FileError} (h : t.readText (dir.join ⟨Document.fileName .icons⟩) = .error e) :
      Unloadable t dir (.unreadable .icons (dir.join ⟨Document.fileName .icons⟩).text e.message)
  | noStyles {icons : String} {e : FileError} (hi : t.readText (dir.join ⟨Document.fileName .icons⟩) = .ok icons)
      (h : t.readText (dir.join ⟨Document.fileName .styles⟩) = .error e) :
      Unloadable t dir (.unreadable .styles (dir.join ⟨Document.fileName .styles⟩).text e.message)
  | malformed {icons styles : String} {e : MetadataError}
      (hi : t.readText (dir.join ⟨Document.fileName .icons⟩) = .ok icons)
      (hs : t.readText (dir.join ⟨Document.fileName .styles⟩) = .ok styles)
      (h : Metadata.ofJson icons styles = .error e) : Unloadable t dir e

theorem Metadata.load_error {t : FileTree} {dir : Path} {e : MetadataError} :
    Metadata.load t dir = .error e ↔ Unloadable t dir e := by
  unfold load
  dsimp only
  constructor
  · intro h
    cases hi : t.readText (dir.join ⟨Document.fileName .icons⟩) with
    | error cause =>
        rw [hi] at h
        cases h
        exact .noIcons hi
    | ok icons =>
        rw [hi] at h
        cases hs : t.readText (dir.join ⟨Document.fileName .styles⟩) with
        | error cause =>
            rw [hs] at h
            cases h
            exact .noStyles hi hs
        | ok styles =>
            rw [hs] at h
            exact .malformed hi hs h
  · intro h
    cases h with
    | noIcons hi => rw [hi]
    | noStyles hi hs => rw [hi, hs]
    | malformed hi hs h =>
        rw [hi, hs]
        exact h

/-- Why nothing is scanned: there is no pattern, or one of the patterns is invalid. -/
inductive Scan.Refuses (s : Scan) : ScanError → Prop where
  | noPattern (h : s.patterns = []) : Refuses s .noPattern
  | badPattern {e : Glob.PatternError} (hp : s.patterns ≠ []) (h : Glob.PatternSet.ofPatterns s.patterns = .error e) :
      Refuses s (.badPattern e)
  | badIgnore {set : Glob.PatternSet} {e : Glob.PatternError} (hp : s.patterns ≠ [])
      (hs : Glob.PatternSet.ofPatterns s.patterns = .ok set) (h : Glob.PatternSet.ofPatterns s.ignore = .error e) :
      Refuses s (.badPattern e)

theorem Scan.select_error {s : Scan} {ps : List Path} {e : ScanError} : s.select ps = .error e ↔ s.Refuses e := by
  constructor
  · intro h
    unfold select at h
    split at h
    · cases h
      exact .noPattern (List.isEmpty_iff.mp ‹_›)
    · rename_i hp
      have hne : s.patterns ≠ [] := fun hnil => hp (List.isEmpty_iff.mpr hnil)
      split at h
      · cases h
        exact .badPattern hne ‹_›
      · split at h
        · cases h
          exact .badIgnore hne ‹_› ‹_›
        · cases h
  · rintro (hp | ⟨hp, h⟩ | ⟨hp, hs, h⟩)
    · simp [select, hp]
    · simp [select, hp, h]
    · simp [select, hp, hs, h]

theorem Scan.files_error {s : Scan} {t : FileTree} {e : ScanError} : s.files t = .error e ↔ s.Refuses e := by
  rw [files_eq_select, select_error]

theorem readContent_cons_error {t : FileTree} {f : Path} {files : List Path} {e : ScanError} :
    readContent t (f :: files) = .error e ↔
      (∃ cause, t.readText f = .error cause ∧ e = .unreadable f cause) ∨
        (∃ text, t.readText f = .ok text) ∧ readContent t files = .error e := by
  cases hf : t.readText f with
  | error cause => simp [readContent, hf, eq_comm]
  | ok text => cases hc : readContent t files <;> simp [readContent, hf, hc, Except.map]

/-- The first file that cannot be read is reported. -/
theorem readContent_error {t : FileTree} {files : List Path} {e : ScanError} : readContent t files = .error e ↔
    ∃ before p after cause, files = before ++ p :: after ∧ (∀ q ∈ before, ∃ text, t.readText q = .ok text) ∧
      t.readText p = .error cause ∧ e = .unreadable p cause := by
  induction files with
  | nil => simp [readContent]
  | cons f files ih =>
      rw [readContent_cons_error, ih]
      constructor
      · rintro (⟨cause, hf⟩ | ⟨hf, before, p, after, cause, rfl, hb, hp⟩)
        · exact ⟨[], f, files, cause, rfl, List.forall_mem_nil _, hf⟩
        · exact ⟨f :: before, p, after, cause, rfl, List.forall_mem_cons.mpr ⟨hf, hb⟩, hp⟩
      · rintro ⟨before, p, after, cause, hsplit, hb, hp⟩
        cases before with
        | nil =>
            obtain ⟨rfl, -⟩ := List.cons_eq_cons.mp hsplit
            exact Or.inl ⟨cause, hp⟩
        | cons q before =>
            obtain ⟨rfl, rfl⟩ := List.cons_eq_cons.mp hsplit
            obtain ⟨hf, hb⟩ := List.forall_mem_cons.mp hb
            exact Or.inr ⟨hf, before, p, after, cause, rfl, hb, hp⟩

namespace Build

variable {b : Build} {t t' after : FileTree} {e : BuildError} {report : BuildReport}

/-- Why a build ends before it writes: nothing is scanned, a file that is scanned is no text that can be read, or the
documents cannot be loaded. -/
inductive Refuses (b : Build) (t : FileTree) : BuildError → Prop where
  | scan {e : ScanError} (h : b.scan.Refuses e) : Refuses b t (.scan e)
  | unreadable {before after : List Path} {p : Path} {e : FileError}
      (hf : b.scan.files t = .ok (before ++ p :: after)) (hb : ∀ q ∈ before, ∃ text, t.readText q = .ok text)
      (h : t.readText p = .error e) : Refuses b t (.scan (.unreadable p e))
  | metadata {files : List Path} {content : String} {e : MetadataError} (hr : b.readFiles t = .ok (files, content))
      (h : Metadata.Unloadable t (b.root.join b.config.metaDir) e) : Refuses b t (.metadata e)

theorem readFiles_error {e : ScanError} : b.readFiles t = .error e ↔ b.Refuses t (.scan e) := by
  unfold readFiles
  constructor
  · intro h
    split at h
    · cases h
      exact .scan (Scan.files_error.mp ‹_›)
    · rename_i files hf
      cases hc : readContent t files with
      | ok content =>
          rw [hc] at h
          cases h
      | error cause =>
          rw [hc] at h
          cases h
          obtain ⟨before, p, after, cause, rfl, hb, hp, rfl⟩ := readContent_error.mp hc
          exact .unreadable hf hb hp
  · intro h
    cases h with
    | scan h => rw [Scan.files_error.mpr h]
    | unreadable hf hb hp =>
        rw [hf]
        simp only [readContent_error.mpr ⟨_, _, _, _, rfl, hb, hp, rfl⟩, Except.map]

theorem input_error : (b.input t).1 = .error e ↔ b.Refuses t e := by
  unfold input
  constructor
  · intro h
    split at h
    · cases h
      exact readFiles_error.mp ‹_›
    · rename_i files content hr
      split at h
      · cases h
        exact .metadata hr (Metadata.load_error.mp ‹_›)
      · cases h
  · intro h
    cases h with
    | metadata hr h => simp only [hr, Metadata.load_error.mpr h]
    | scan h => simp only [readFiles_error.mpr (.scan h)]
    | unreadable hf hb hp => simp only [readFiles_error.mpr (.unreadable hf hb hp)]

/-! ## The subsetter -/

theorem input_with_subsetter (s : Font.Subsetter) : Build.input { b with subsetter := s } t = b.input t := by
  simp only [input, readFiles, scan]

theorem output_with_subsetter (s : Font.Subsetter) (i : Input) :
    Build.output { b with subsetter := s } t i = b.output t i := by
  have hcustom (files : List Path) : Build.customCss { b with subsetter := s } t files = b.customCss t files := by
    induction files with
    | nil => rfl
    | cons file files ih => rw [customCss_cons, customCss_cons, ih]
  simp only [output, hcustom]
  rfl

/-- How a build fails is settled without the subsetter. -/
theorem Outcome.with_subsetter (h : Outcome b t (.error e) after) (s : Font.Subsetter) :
    Outcome { b with subsetter := s } t (.error e) after := by
  cases h with
  | unread hread =>
      rw [← input_with_subsetter s] at hread
      exact .unread hread
  | noDirectory hread h =>
      rw [← input_with_subsetter s] at hread
      exact .noDirectory (b := { b with subsetter := s }) hread h
  | noStylesheet hread hmade h =>
      rw [← input_with_subsetter s] at hread
      rw [← output_with_subsetter s] at h
      exact .noStylesheet (b := { b with subsetter := s }) hread hmade h
  | noFont hread hmade hstyled h =>
      obtain ⟨bytes, cause, hbytes, hwrite, rfl⟩ := writeFont_error.mp h
      rw [← input_with_subsetter s] at hread
      rw [← output_with_subsetter s] at hstyled
      exact .noFont (b := { b with subsetter := s }) hread hmade hstyled
        (writeFont_error.mpr ⟨bytes, cause, hbytes, FileTree.write_error_congr _ _ hwrite, rfl⟩)

theorem error_iff_with_subsetter (b : Build) (t : FileTree) (s : Font.Subsetter) (e : BuildError) :
    (Build.run { b with subsetter := s } t).result = .error e ↔ (b.run t).result = .error e := by
  constructor
  · intro h
    have ho := outcome_run { b with subsetter := s } t
    rw [h] at ho
    exact (ho.with_subsetter b.subsetter).run.1
  · intro h
    have ho := outcome_run b t
    rw [h] at ho
    exact (ho.with_subsetter s).run.1

/-! ## What changes -/

/-- However a build ends, it keeps to its output. -/
theorem Outcome.confined {result : Except BuildError BuildReport} (h : Outcome b t result after) :
    FileTree.Confined (b.root.join b.config.outputDir) [b.root.join b.config.fontPath, b.root.join b.config.cssPath]
      t after := by
  cases h with
  | unread => exact .refl _ _ t
  | noDirectory hread h =>
      exact (FileTree.Confined.of_newDirs (FileTree.newDirs_makeDirsLeft t _)).mono (List.nil_subset _)
  | noStylesheet hread hmade h =>
      exact (FileTree.Confined.of_newDirs (FileTree.newDirs_of_makeDirs hmade)).mono (List.nil_subset _)
  | noFont hread hmade hstyled h =>
      exact ((FileTree.Confined.of_newDirs (FileTree.newDirs_of_makeDirs hmade)).write hstyled).mono (List.subset_cons_self _ _)
  | succeeded h =>
      cases h with
      | mk hread hmade hstyled hfont =>
          have hconfined := (FileTree.Confined.of_newDirs (FileTree.newDirs_of_makeDirs hmade)).write hstyled
          rcases writeFont_ok.mp hfont with ⟨-, rfl, -⟩ | ⟨bytes, -, hwritten, -⟩
          · exact hconfined.mono (List.subset_cons_self _ _)
          · exact hconfined.write hwritten

/-- What a build that succeeded has made: the output directory, the stylesheet, and the font if one could be read when
its turn came. -/
structure Made (b : Build) (t : FileTree) (report : BuildReport) (after : FileTree) : Prop where
  confined : FileTree.Confined (b.root.join b.config.outputDir) ((report.font.map Prod.fst).toList ++ [report.cssPath])
    t after
  directory : after.isDir (b.root.join b.config.outputDir) = true
  cssPath : report.cssPath = b.root.join b.config.cssPath
  stylesheet : ∃ i, (b.input t).1 = .ok i ∧ after.read report.cssPath = .ok (b.output t i).css.toUTF8
  target : ∀ path s, report.font = some (path, s) →
    path = b.root.join b.config.fontPath ∧ after.read path = .ok s.bytes
  source : report.font.isSome = true ↔ ∃ bytes, after.read (b.root.join b.config.font) = .ok bytes
  /-- A font that could be read beforehand is there when its turn comes. -/
  font : ∀ bytes, t.read (b.root.join b.config.font) = .ok bytes → report.font.isSome = true

theorem Succeeds.made (h : Succeeds b t report after) : b.Made t report after := by
  have hconfined := (Outcome.succeeded h).confined
  cases h with
  | @mk i made styled after font hread hmade hstyled hfont =>
      have hcss := FileTree.read_of_write hstyled
      obtain ⟨hmore, hdir⟩ := FileTree.makeDirs_ok hmade
      have hdir' := FileTree.isDir_of_write hstyled hdir
      rcases writeFont_ok.mp hfont with ⟨⟨e, he⟩, rfl, rfl⟩ | ⟨bytes, hbytes, hwritten, rfl⟩
      · exact {
          confined := (FileTree.Confined.of_newDirs (FileTree.newDirs_of_makeDirs hmade)).write hstyled
          directory := hdir'
          cssPath := rfl
          stylesheet := ⟨i, hread, hcss⟩
          target := nofun
          source := iff_of_false nofun fun ⟨bytes, hbytes⟩ => nomatch he.symm.trans hbytes
          font := fun bytes hbytes => by
            obtain ⟨new, hnew⟩ := FileTree.read_after_write hstyled (hmore.read hbytes)
            cases he.symm.trans hnew }
      · exact {
          confined := hconfined
          directory := FileTree.isDir_of_write hwritten hdir'
          cssPath := rfl
          stylesheet := ⟨i, hread, FileTree.read_apart hwritten (not_samePlace_generated b) hcss⟩
          target := fun path s heq => by
            cases heq
            exact ⟨rfl, FileTree.read_of_write hwritten⟩
          source := iff_of_true rfl (FileTree.read_after_write hwritten hbytes)
          font := fun _ _ => rfl }

/-! ## The theorem -/

/-- A build that refuses something leaves the tree as it is; it fails otherwise only for want of a place to write to.
However it ends, it keeps to its output, and whether it fails does not depend on the subsetter. -/
structure KeepsToOutput (b : Build) (t : FileTree) : Prop where
  refused : ∀ e, b.Refuses t e → (b.run t).result = .error e ∧ (b.run t).tree = t
  failed : ∀ e, (b.run t).result = .error e →
    b.Refuses t e ∨ ∃ path cause, e = .cannotCreate path cause ∨ e = .cannotWrite path cause
  confined : FileTree.Confined (b.root.join b.config.outputDir)
    [b.root.join b.config.fontPath, b.root.join b.config.cssPath] t (b.run t).tree
  succeeded : ∀ report, (b.run t).result = .ok report → b.Made t report (b.run t).tree
  subsetter : ∀ s e, (Build.run { b with subsetter := s } t).result = .error e ↔ (b.run t).result = .error e

theorem run_keeps_to_output (b : Build) (t : FileTree) : b.KeepsToOutput t where
  refused := fun _ h => (Outcome.unread (input_error.mpr h)).run
  failed := fun e h => by
    have houtcome := outcome_run b t
    rw [h] at houtcome
    generalize (b.run t).tree = after at houtcome
    cases houtcome with
    | unread hread => exact Or.inl (input_error.mp hread)
    | noDirectory => exact Or.inr ⟨_, _, Or.inl rfl⟩
    | noStylesheet => exact Or.inr ⟨_, _, Or.inr rfl⟩
    | noFont _ _ _ h =>
        obtain ⟨_, cause, -, -, rfl⟩ := writeFont_error.mp h
        exact Or.inr ⟨_, cause, Or.inr rfl⟩
  confined := (outcome_run b t).confined
  succeeded := fun _ h => (succeeds_of_run h).made
  subsetter := error_iff_with_subsetter b t

end Build
end UtilityCss
