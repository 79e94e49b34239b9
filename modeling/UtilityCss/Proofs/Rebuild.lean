import UtilityCss.Proofs.BuildRuns
import UtilityCss.Proofs.OutputScan
import UtilityCss.Proofs.PlainObjects

/-!
# Building again

A build reads nothing that it wrote. Built again, a project whose output is told apart from what is scanned gives the
same report, the same stylesheet and the same font.
-/

namespace UtilityCss

/-! ## What a scan finds -/

def FileTree.Named (t : FileTree) : Prop := ∀ e ∈ t.entries, ∀ n ∈ e.1, IsName n

instance (t : FileTree) : Decidable t.Named :=
  inferInstanceAs (Decidable (∀ e ∈ t.entries, ∀ n ∈ e.1, IsName n))

theorem FileTree.Named.filesBelow {t : FileTree} (h : t.Named) {base ns : Location}
    (hns : ns ∈ t.filesBelow base) : ∀ n ∈ ns, IsName n := by
  obtain ⟨⟨l, node⟩, he, hrest⟩ := List.mem_filterMap.mp hns
  cases node with
  | dir => cases hrest
  | file bytes =>
      have hl : l = base ++ ns := Text.rest?_eq_some.mp hrest
      intro n hn
      exact h _ he n (by rw [hl]; exact List.mem_append_right _ hn)

namespace Scan

/-- A file that is scanned lies below the base, and the scan keeps its path. -/
theorem exists_names_of_mem_files {s : Scan} {t : FileTree} {base : Location} {files : List Path} {f : Path}
    (hbase : t.node s.base = .ok (base, .dir)) (h : s.files t = .ok files) (hf : f ∈ files) :
    ∃ ns ∈ t.filesBelow base, f = s.below ns ∧ ∃ patterns ignore,
      Glob.PatternSet.ofPatterns s.patterns = .ok patterns ∧ Glob.PatternSet.ofPatterns s.ignore = .ok ignore ∧
      s.keeps patterns ignore ((f.relativeTo? s.base).getD f) = true := by
  rw [files_eq_select] at h
  obtain ⟨patterns, ignore, -, hp, hi, rfl⟩ := select_ok.mp h
  obtain ⟨hwalk, hkeeps⟩ := List.mem_filter.mp (mem_of_mem_firstsBy (List.mem_mergeSort.mp hf)).1
  simp only [walk, hbase] at hwalk
  obtain ⟨ns, hns, rfl⟩ := List.mem_map.mp hwalk
  have hbelow := (List.mem_filter.mp (List.mem_filter.mp hns).1).1
  exact ⟨ns, hbelow, rfl, patterns, ignore, hp, hi, hkeeps⟩

end Scan

namespace Build

variable {b : Build} {t : FileTree} {report : BuildReport}

/-- A tree `t` in which the output directory was made, and then files at the locations `ls` were written, all of them
generated ones. The project is at `base`. -/
structure Built (b : Build) (base : Location) (ls : List Location) (t made after : FileTree) : Prop where
  root : t.node b.root = .ok (base, .dir)
  more : FileTree.MoreDirs t made
  output : made.isDir (b.root.join b.config.outputDir) = true
  writes : FileTree.Rewrites ls made after
  generated : ∀ l ∈ ls, ∃ g ∈ [b.config.cssPath, b.config.fontPath], after.locate (b.root.join g) = .ok l

theorem built_of_makeDirs {made after : FileTree} {ls : List Location} (hroot : t.isDir b.root = true)
    (hmade : t.makeDirs (b.root.join b.config.outputDir) = .ok made) (hwrites : FileTree.Rewrites ls made after)
    (hls : ∀ l ∈ ls, ∃ g ∈ [b.config.cssPath, b.config.fontPath], after.locate (b.root.join g) = .ok l) :
    ∃ base, b.Built base ls t made after := by
  obtain ⟨base, hbase, hdir⟩ := FileTree.isDir_iff.mp hroot
  obtain ⟨hmore, houtput⟩ := FileTree.makeDirs_ok hmade
  exact ⟨base, FileTree.node_ok.mpr ⟨hbase, hdir⟩, hmore, houtput, hwrites, hls⟩

namespace Built

variable {base : Location} {ls : List Location} {made after : FileTree} {i : Input} {files : List Path}

theorem keepsDirs (h : b.Built base ls t made after) : FileTree.KeepsDirs t after :=
  fun l hl => (h.writes.dirs l).mpr (h.more.keepsDirs l hl)

theorem locate_root (h : b.Built base ls t made after) : after.locate b.root = .ok base :=
  FileTree.locate_mono h.keepsDirs (FileTree.node_ok.mp h.root).1

theorem node_root (h : b.Built base ls t made after) : after.node b.root = .ok (base, .dir) :=
  FileTree.node_ok.mpr ⟨h.locate_root, h.keepsDirs base (FileTree.node_ok.mp h.root).2⟩

theorem getLast?_of_mem (h : b.Built base ls t made after) {l : Location} (hl : l ∈ ls) :
    ∃ n ∈ [Config.cssName, Config.fontName], l.getLast? = some n := by
  obtain ⟨g, hg, hlocate⟩ := h.generated l hl
  obtain ⟨n, hn, hname, rfl⟩ := exists_generated hg
  exact ⟨n, hn, FileTree.getLast?_of_locate hname hlocate⟩

/-- What could be read and is not a generated file is read as it was. -/
theorem readText (h : b.Built base ls t made after) {p : Path} {text : String} (hp : t.readText p = .ok text)
    (hls : ∀ l ∈ ls, after.locate p ≠ .ok l) : after.readText p = .ok text := by
  obtain ⟨bytes, hbytes, htext⟩ := FileTree.readText_ok.mp hp
  exact FileTree.readText_ok.mpr ⟨bytes, (h.writes.read_ok hls).mpr (h.more.read hbytes), htext⟩

/-! ## What is read again -/

theorem scan (h : b.Built base ls t made after) (hout : b.OutputApart after) :
    b.scan.files after = b.scan.files t := by
  refine Scan.files_eq (s := b.scan) h.root h.node_root (h.writes.files.trans (h.more.files ▸ rfl)) (fun l hl => ?_)
    fun patterns ignore hp hi ns hns => ?_
  · obtain ⟨n, hn, hlast⟩ := h.getLast?_of_mem hl
    rw [hlast]
    rcases List.mem_pair.mp hn with rfl | rfl <;> decide
  · obtain ⟨g, hg, hlocate⟩ := h.generated _ hns
    have hnames : ∀ n ∈ ns, IsName n :=
      fun n hn => FileTree.isName_of_locate hlocate n (List.mem_append_right _ hn)
    rw [Scan.relativeTo?_below hnames, Option.getD_some]
    exact hout.keeps_eq_false hg h.locate_root hlocate hp hi

theorem not_generated (h : b.Built base ls t made after) (hout : b.OutputApart after) (hnamed : t.Named)
    (hfiles : b.scan.files t = .ok files) {f g : Path} (hf : f ∈ files)
    (hg : g ∈ [b.config.cssPath, b.config.fontPath]) : ¬ after.SamePlace f (b.root.join g) := by
  rintro ⟨l, hl, hlocate⟩
  obtain ⟨ns, hns, rfl, patterns, ignore, hp, hi, hkeeps⟩ :=
    Scan.exists_names_of_mem_files (s := b.scan) h.root hfiles hf
  have hnames := hnamed.filesBelow hns
  obtain rfl : l = base ++ ns :=
    Scan.steps_below (s := b.scan) hnames (FileTree.steps_of_locate h.locate_root) (FileTree.steps_of_locate hl)
  rw [Scan.relativeTo?_below hnames, Option.getD_some, hout.keeps_eq_false hg h.locate_root hlocate hp hi] at hkeeps
  cases hkeeps

theorem metadata (h : b.Built base ls t made after) {dir : Path} {m : Metadata} (hm : Metadata.load t dir = .ok m) :
    Metadata.load after dir = .ok m := by
  have hdocument (d : Document) : ∀ l ∈ ls, after.locate (dir.join ⟨d.fileName⟩) ≠ .ok l := by
    intro l hl hlocate
    have hname : IsName d.fileName := by cases d <;> decide
    obtain ⟨n, hn, hlast⟩ := h.getLast?_of_mem hl
    rw [FileTree.getLast?_of_foldlM hname (FileTree.steps_of_locate hlocate)] at hlast
    cases hlast
    revert hn
    cases d <;> decide
  obtain ⟨icons, styles, hicons, hstyles, hjson⟩ := Metadata.load_ok.mp hm
  exact Metadata.load_ok.mpr ⟨icons, styles, h.readText hicons (hdocument .icons),
    h.readText hstyles (hdocument .styles), hjson⟩

theorem input (h : b.Built base ls t made after) (hout : b.OutputApart after) (hnamed : t.Named)
    (hi : (b.input t).1 = .ok i) : (b.input after).1 = .ok i := by
  obtain ⟨hfiles, hcontent, hmetadata⟩ := input_ok.mp hi
  refine input_ok.mpr ⟨(h.scan hout).trans hfiles, readContent_congr hcontent fun f hf text hread => ?_,
    h.metadata hmetadata⟩
  refine h.readText hread fun l hl hlocate => ?_
  obtain ⟨g, hg, hgen⟩ := h.generated l hl
  exact h.not_generated hout hnamed hfiles hf hg ⟨l, hlocate, hgen⟩

/-- The stylesheet is the same if the stylesheets to append are no generated files, and none of them came up with the
output directory. -/
theorem css (h : b.Built base ls t made after)
    (hcustom : ∀ p ∈ b.config.customCss,
      (made.readText (b.root.join p)).toOption = (t.readText (b.root.join p)).toOption)
    (hapart : ∀ p ∈ b.config.customCss, ∀ l ∈ ls, after.locate (b.root.join p) ≠ .ok l) :
    (b.output after i).css = (b.output t i).css := by
  refine output_css i (customCss_congr fun p hp => ?_)
  rw [← hcustom p hp]
  exact h.writes.readText (hapart p hp)

theorem succeeds (h : b.Built base ls t made after) (hout : b.OutputApart after) (hnamed : t.Named)
    (hi : (b.input t).1 = .ok i) (hcss : (b.output after i).css = (b.output t i).css) {styled last : FileTree}
    {font : Option (Path × Font.Subset)}
    (hstyled : after.write (b.root.join b.config.cssPath) (b.output t i).css.toUTF8 = .ok styled)
    (hfont : (b.writeFont styled i.metadata (b.output t i).aggregator.usedIcons.toList).1 = .ok (last, font)) :
    Succeeds b after
      { filesScanned := i.files.length
        tokens := (b.output t i).tokens.length
        rules := (b.output t i).aggregator.buckets.ruleCount
        cssPath := b.root.join b.config.cssPath
        font } last := by
  have hmade : after.makeDirs (b.root.join b.config.outputDir) = .ok after := by
    obtain ⟨l, hl, hdir⟩ := FileTree.isDir_iff.mp h.output
    exact FileTree.makeDirs_of_isDir
      (FileTree.isDir_iff.mpr ⟨l, h.writes.locate_ok.mpr hl, (h.writes.dirs l).mpr hdir⟩)
  rw [← hcss] at hstyled
  exact .mk (h.input hout hnamed hi) hmade hstyled hfont

end Built

/-! ## Building again -/

/-- No path that is read leads to a generated file. -/
def InputsApart (b : Build) (after : FileTree) : Prop :=
  ∀ p ∈ b.config.font :: b.config.customCss, ∀ g ∈ [b.config.cssPath, b.config.fontPath],
    ¬ after.SamePlace (b.root.join p) (b.root.join g)

instance (b : Build) (after : FileTree) : Decidable (b.InputsApart after) :=
  inferInstanceAs (Decidable (∀ p ∈ _, ∀ g ∈ _, ¬ _))

theorem InputsApart.locate_ne {after : FileTree} (h : b.InputsApart after) {p g : Path}
    (hp : p ∈ b.config.font :: b.config.customCss) (hg : g ∈ [b.config.cssPath, b.config.fontPath]) {l : Location}
    (hl : after.locate (b.root.join g) = .ok l) : after.locate (b.root.join p) ≠ .ok l :=
  fun hlocate => h p hp g hg ⟨l, hlocate, hl⟩

theorem mem_cssPath : b.config.cssPath ∈ [b.config.cssPath, b.config.fontPath] := List.mem_cons_self

theorem mem_fontPath : b.config.fontPath ∈ [b.config.cssPath, b.config.fontPath] :=
  List.mem_cons_of_mem _ List.mem_cons_self

/-- Making the output directory brings up no stylesheet that could not be read before. -/
def CustomKept (b : Build) (t : FileTree) : Prop :=
  ∀ made, t.makeDirs (b.root.join b.config.outputDir) = .ok made → ∀ p ∈ b.config.customCss,
    (made.readText (b.root.join p)).toOption = (t.readText (b.root.join p)).toOption

/-- A stylesheet that can be read is still read when directories are made. -/
theorem customKept_of_readText (h : ∀ p ∈ b.config.customCss, ∃ text, t.readText (b.root.join p) = .ok text) :
    b.CustomKept t := by
  intro made hmade p hp
  obtain ⟨text, htext⟩ := h p hp
  obtain ⟨bytes, hbytes, hutf⟩ := FileTree.readText_ok.mp htext
  have hmore := (FileTree.makeDirs_ok hmade).1
  rw [htext, FileTree.readText_ok.mpr ⟨bytes, hmore.read hbytes, hutf⟩]

section Again

variable {made styled after : FileTree} {i : Input} (hroot : t.isDir b.root = true) (hnamed : t.Named)
  (hout : b.OutputApart after) (hinputs : b.InputsApart after) (hcustom : b.CustomKept t)
  (hread : (b.input t).1 = .ok i)
  (hmade : t.makeDirs (b.root.join b.config.outputDir) = .ok made)
  (hstyled : made.write (b.root.join b.config.cssPath) (b.output t i).css.toUTF8 = .ok styled)

include hstyled in
theorem exists_css : ∃ c, made.locate (b.root.join b.config.cssPath) = .ok c ∧
    (b.root.join b.config.cssPath).text.toList.getLast? ≠ some '/' ∧
    styled.get? c = some (.file (b.output t i).css.toUTF8) := by
  obtain ⟨c, hc, hslash, hdir, rfl⟩ := FileTree.write_ok.mp hstyled
  exact ⟨c, hc, hslash, by rw [FileTree.get?_put made (FileTree.ne_nil_of_get? hdir), if_pos rfl]⟩

include hroot hnamed hout hinputs hcustom hread hmade hstyled in
/-- Without a font, the stylesheet is written once more. -/
theorem again_without_font (hafter : after = styled) {e : FileError}
    (he : after.read (b.root.join b.config.font) = .error e) :
    ∃ base ls last, b.Built base ls t made after ∧ last.get? = after.get? ∧
      Succeeds b after
        { filesScanned := i.files.length
          tokens := (b.output t i).tokens.length
          rules := (b.output t i).aggregator.buckets.ruleCount
          cssPath := b.root.join b.config.cssPath
          font := none } last := by
  subst hafter
  obtain ⟨c, hc, hslash, hgetc⟩ := exists_css hstyled
  have hwrites : FileTree.Rewrites [c] made after := .of_write hstyled hc List.mem_cons_self
  have hlocate := hwrites.locate_ok.mpr hc
  obtain ⟨base, hbuilt⟩ := built_of_makeDirs hroot hmade hwrites fun l hl =>
    ⟨b.config.cssPath, mem_cssPath, List.mem_singleton.mp hl ▸ hlocate⟩
  have hcss := hbuilt.css (i := i) (hcustom made hmade) fun p hp l hl =>
    hinputs.locate_ne (List.mem_cons_of_mem _ hp) mem_cssPath (List.mem_singleton.mp hl ▸ hlocate)
  obtain ⟨last, hlast, hget⟩ := FileTree.write_again hlocate hslash hgetc
  have hnone : last.read (b.root.join b.config.font) = .error e := by rw [FileTree.read_eq hget, he]
  refine ⟨base, [c], last, hbuilt, hget, hbuilt.succeeds hout hnamed hread hcss hlast ?_⟩
  exact writeFont_ok.mpr (Or.inl ⟨⟨e, hnone⟩, rfl, rfl⟩)

include hroot hnamed hout hinputs hcustom hread hmade hstyled in
/-- With a font, the stylesheet and the font are written once more. -/
theorem again_with_font {bytes : ByteArray} {s : Font.Subset}
    (hs : s = Font.subset bytes i.metadata (b.output t i).aggregator.usedIcons.toList b.subsetter)
    (hbytes : styled.read (b.root.join b.config.font) = .ok bytes)
    (hwritten : styled.write (b.root.join b.config.fontPath) s.bytes = .ok after) :
    ∃ base ls last, b.Built base ls t made after ∧ last.get? = after.get? ∧
      Succeeds b after
        { filesScanned := i.files.length
          tokens := (b.output t i).tokens.length
          rules := (b.output t i).aggregator.buckets.ruleCount
          cssPath := b.root.join b.config.cssPath
          font := some (b.root.join b.config.fontPath, s) } last := by
  obtain ⟨c, hc, hslash, hgetc⟩ := exists_css hstyled
  obtain ⟨f, hf, hslash', hdir, hput⟩ := FileTree.write_ok.mp hwritten
  have hstep : FileTree.Rewrites [c, f] made styled := .of_write hstyled hc List.mem_cons_self
  have hstep' : FileTree.Rewrites [f] styled after := .of_write hwritten hf List.mem_cons_self
  have hwrites : FileTree.Rewrites [c, f] made after :=
    hstep.trans (.of_write hwritten hf (List.mem_cons_of_mem _ List.mem_cons_self))
  have hlocate := hwrites.locate_ok.mpr hc
  have hlocate' := hstep'.locate_ok.mpr hf
  obtain ⟨base, hbuilt⟩ := built_of_makeDirs hroot hmade hwrites fun l hl => by
    rcases List.mem_pair.mp hl with rfl | rfl
    · exact ⟨b.config.cssPath, mem_cssPath, hlocate⟩
    · exact ⟨b.config.fontPath, mem_fontPath, hlocate'⟩
  have hcf : c ≠ f := by
    rintro rfl
    exact not_samePlace_generated b ⟨c, hlocate, hlocate'⟩
  have hgetf : after.get? f = some (.file s.bytes) := by
    rw [hput, FileTree.get?_put styled (FileTree.ne_nil_of_get? hdir), if_pos rfl]
  have hgetc' : after.get? c = some (.file (b.output t i).css.toUTF8) := by
    rw [hstep'.same c (by simpa using hcf), hgetc]
  have hcss := hbuilt.css (i := i) (hcustom made hmade) fun p hp l hl => by
    rcases List.mem_pair.mp hl with rfl | rfl
    · exact hinputs.locate_ne (List.mem_cons_of_mem _ hp) mem_cssPath hlocate
    · exact hinputs.locate_ne (List.mem_cons_of_mem _ hp) mem_fontPath hlocate'
  obtain ⟨again, hagain, hget⟩ := FileTree.write_again hlocate hslash hgetc'
  have hsource : again.read (b.root.join b.config.font) = .ok bytes := by
    rw [FileTree.read_eq hget]
    refine (hstep'.read_ok fun l hl => ?_).mpr hbytes
    exact hinputs.locate_ne List.mem_cons_self mem_fontPath (List.mem_singleton.mp hl ▸ hlocate')
  have hplace : again.locate (b.root.join b.config.fontPath) = .ok f := by
    rw [FileTree.locate_eq hget]
    exact hlocate'
  obtain ⟨last, hlast, hget'⟩ := FileTree.write_again hplace hslash' (hget ▸ hgetf)
  refine ⟨base, [c, f], last, hbuilt, hget'.trans hget, hbuilt.succeeds hout hnamed hread hcss hagain ?_⟩
  exact writeFont_ok.mpr (Or.inr ⟨bytes, hsource, hs ▸ hlast, hs ▸ rfl⟩)

end Again

/-- A build that succeeded succeeds again with the same report and leaves the same files. -/
theorem Succeeds.again {after : FileTree} (h : Succeeds b t report after) (hroot : t.isDir b.root = true)
    (hnamed : t.Named) (hout : b.OutputApart after) (hinputs : b.InputsApart after) (hcustom : b.CustomKept t) :
    ∃ base ls made last, b.Built base ls t made after ∧ last.get? = after.get? ∧
      Succeeds b after report last := by
  cases h with
  | @mk i made styled after font hread hmade hstyled hfont =>
      rcases writeFont_ok.mp hfont with ⟨⟨e, he⟩, rfl, rfl⟩ | ⟨bytes, hbytes, hwritten, rfl⟩
      · obtain ⟨base, ls, last, hagain⟩ :=
          again_without_font hroot hnamed hout hinputs hcustom hread hmade hstyled rfl he
        exact ⟨base, ls, made, last, hagain⟩
      · obtain ⟨base, ls, last, hagain⟩ :=
          again_with_font hroot hnamed hout hinputs hcustom hread hmade hstyled rfl hbytes hwritten
        exact ⟨base, ls, made, last, hagain⟩

/-- The stylesheet is there after a build, and so is the font that is reported. -/
theorem Succeeds.read_output {after : FileTree} (h : Succeeds b t report after) :
    (∃ css, after.read (b.root.join b.config.cssPath) = .ok css) ∧
      ∀ path s, report.font = some (path, s) → after.read path = .ok s.bytes := by
  cases h with
  | @mk i made styled after font hread hmade hstyled hfont =>
      have hcss := FileTree.read_of_write hstyled
      rcases writeFont_ok.mp hfont with ⟨-, rfl, rfl⟩ | ⟨bytes, -, hwritten, rfl⟩
      · exact ⟨⟨_, hcss⟩, nofun⟩
      · refine ⟨FileTree.read_after_write hwritten hcss, fun path s heq => ?_⟩
        cases heq
        exact FileTree.read_of_write hwritten

/-- Building twice is building once: the second build scans the same files, gives the same report and leaves every
file, the stylesheet and the font among them, as the first one left it. No file that is scanned is a generated one. -/
theorem run_again (hrun : (b.run t).result = .ok report) (hroot : t.isDir b.root = true) (hnamed : t.Named)
    (hout : b.OutputApart (b.run t).tree) (hinputs : b.InputsApart (b.run t).tree) (hcustom : b.CustomKept t) :
    let after := (b.run t).tree
    (b.run after).result = .ok report ∧ b.scan.files after = b.scan.files t ∧
      (∀ p, (b.run after).tree.read p = after.read p) ∧
      (∃ css, after.read (b.root.join b.config.cssPath) = .ok css) ∧
      (∀ path s, report.font = some (path, s) → after.read path = .ok s.bytes) ∧
      ∀ files, b.scan.files t = .ok files → ∀ f ∈ files, ∀ g ∈ [b.config.cssPath, b.config.fontPath],
        ¬ after.SamePlace f (b.root.join g) := by
  intro after
  have hsucceeds := succeeds_of_run hrun
  obtain ⟨base, ls, made, last, hbuilt, hget, hagain⟩ := hsucceeds.again hroot hnamed hout hinputs hcustom
  obtain ⟨hresult, hlast⟩ := hagain.run
  refine ⟨hresult, hbuilt.scan hout, fun p => ?_, hsucceeds.read_output.1, hsucceeds.read_output.2,
    fun files hfiles f hf g hg => hbuilt.not_generated hout hnamed hfiles hf hg⟩
  rw [hlast, FileTree.read_eq hget]

/-! ## A small project -/

def sampleIcons : String := Json.objectText ("if-home".toList, "width: 1em".toList) []

def sampleStyles : String := Json.objectText ("is-flex".toList, "display: flex".toList) []

def sampleMetadata : Metadata where
  icons := [("if-home", { declarations := some "width: 1em" })]
  styles := [("is-flex", { declarations := some "display: flex" })]

theorem ofJson_sample : Metadata.ofJson sampleIcons sampleStyles = .ok sampleMetadata := by
  rw [Metadata.ofJson, sampleIcons, sampleStyles, Json.readObject_plain (by decide), Json.readObject_plain (by decide)]
  decide +kernel

def sampleTree : FileTree where
  entries := [(["p"], .dir), (["p", "t.css"], .file "/* class='is-flex' */".toUTF8), (["p", "m"], .dir),
    (["p", "m", "iconforge-icons.json"], .file sampleIcons.toUTF8),
    (["p", "m", "iconforge-styles.json"], .file sampleStyles.toUTF8), (["p", "f"], .file ⟨#[1, 2]⟩)]

/-- The project, built with a subsetter that keeps the font. -/
def sample (outputDir : String) (content customCss : List String) : Build where
  root := ⟨"/p"⟩
  config :=
    { outputDir := ⟨outputDir⟩, content, customCss := customCss.map Path.mk, metaDir := ⟨"m"⟩, font := ⟨"f"⟩ }
  globs := content
  subsetter := fun font _ => .ok font

theorem load_sample : Metadata.load sampleTree ((⟨"/p"⟩ : Path).join ⟨"m"⟩) = .ok sampleMetadata :=
  Metadata.load_ok.mpr ⟨sampleIcons, sampleStyles, by decide +kernel, by decide +kernel, ofJson_sample⟩

theorem input_sample {outputDir : String} {content customCss : List String} {files : List Path} {text : String}
    (h : (sample outputDir content customCss).readFiles sampleTree = .ok (files, text)) :
    (sample outputDir content customCss).input sampleTree =
      (.ok { files, content := text, metadata := sampleMetadata }, [scanned files]) :=
  input_eq h load_sample

/-- A project that scans and appends its stylesheets, the stylesheet of the output directory excepted. -/
theorem run_again_sample :
    let b := sample "out" ["**/*.css"] ["t.css"]
    ∃ report, (b.run sampleTree).result = .ok report ∧ report.filesScanned = 1 ∧ report.rules = 1 ∧
      report.font.isSome = true ∧ (b.run (b.run sampleTree).tree).result = .ok report := by
  intro b
  have hfiles : b.readFiles sampleTree = .ok ([⟨"/p/t.css"⟩], "/* class='is-flex' */\n") := by decide +kernel
  have hinput := input_sample hfiles
  obtain ⟨hsome, hinputs⟩ : (b.run sampleTree).result.toOption.any
      (fun r => r.filesScanned = 1 && r.rules = 1 && r.font.isSome) = true ∧
      b.InputsApart (b.run sampleTree).tree := by
    unfold run
    rw [hinput]
    decide +kernel
  have hout : b.OutputApart (b.run sampleTree).tree := .named ⟨by decide, by decide, by decide⟩
  have hcustom : b.CustomKept sampleTree := customKept_of_readText fun p hp => by
    rw [List.mem_singleton.mp hp]
    exact ⟨"/* class='is-flex' */", by decide +kernel⟩
  cases hrun : (b.run sampleTree).result with
  | error e =>
      rw [hrun] at hsome
      cases hsome
  | ok report =>
      rw [hrun] at hsome
      simp only [Except.toOption, Option.any_some, Bool.and_eq_true, decide_eq_true_eq] at hsome
      obtain ⟨⟨hscanned, hrules⟩, hfont⟩ := hsome
      have hagain := run_again hrun (by decide +kernel) (by decide +kernel) hout hinputs hcustom
      exact ⟨report, rfl, hscanned, hrules, hfont, hagain.1⟩

/-- In the directory of the project, the stylesheet that was written is scanned by the next build. And a stylesheet
whose path leads through the output directory is appended only when that directory is there. -/
theorem run_again_differs :
    (let b := sample "." ["i*.css"] []
     (b.run sampleTree).result.toOption.isSome = true ∧ b.InputsApart (b.run sampleTree).tree ∧
       b.scan.files sampleTree = .ok [] ∧ b.scan.files (b.run sampleTree).tree = .ok [⟨"/p/iconforge.css"⟩]) ∧
    (let b := sample "out" ["i*.css"] ["out/../t.css"]
     (b.run sampleTree).result.toOption.isSome = true ∧ b.InputsApart (b.run sampleTree).tree ∧
       (b.customCss sampleTree b.config.customCss).1 = "" ∧
       (b.customCss (b.run sampleTree).tree b.config.customCss).1 = "/* class='is-flex' */\n") := by
  constructor
  · intro b
    have hfiles : b.readFiles sampleTree = .ok ([], "") := by decide +kernel
    unfold run
    rw [input_sample hfiles]
    decide +kernel
  · intro b
    have hfiles : b.readFiles sampleTree = .ok ([], "") := by decide +kernel
    unfold run
    rw [input_sample hfiles]
    decide +kernel

end Build

end UtilityCss
