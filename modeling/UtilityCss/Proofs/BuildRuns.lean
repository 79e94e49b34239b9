import UtilityCss.Project.Build
import UtilityCss.Proofs.FileChanges

/-!
# How a build ends

A build that succeeds has read its files and documents, made the output directory, and written the stylesheet and, if
there is a font, the font. The relation `Succeeds` says so step by step, and `Outcome` also says where a build can fail;
`run` and the relations agree.
-/

namespace UtilityCss

/-! ## Reading -/

theorem Metadata.load_ok {t : FileTree} {dir : Path} {m : Metadata} : Metadata.load t dir = .ok m ↔
    ∃ icons styles, t.readText (dir.join ⟨Document.fileName .icons⟩) = .ok icons ∧
      t.readText (dir.join ⟨Document.fileName .styles⟩) = .ok styles ∧ Metadata.ofJson icons styles = .ok m := by
  unfold Metadata.load
  dsimp only
  cases t.readText (dir.join ⟨Document.fileName .icons⟩) with
  | error e => simp
  | ok icons =>
      cases t.readText (dir.join ⟨Document.fileName .styles⟩) with
      | error e => simp
      | ok styles => simp

/-- The text of the files depends on nothing but what is read of each of them. -/
theorem readContent_congr {t t' : FileTree} {files : List Path} {content : String}
    (h : readContent t files = .ok content)
    (hf : ∀ f ∈ files, ∀ text, t.readText f = .ok text → t'.readText f = .ok text) :
    readContent t' files = .ok content := by
  induction files generalizing content with
  | nil => exact h
  | cons f files ih =>
      unfold readContent at h ⊢
      split at h
      · cases h
      · rename_i text hread
        rw [hf f List.mem_cons_self text hread]
        cases hrest : readContent t files with
        | error e =>
            rw [hrest] at h
            cases h
        | ok rest =>
            rw [hrest] at h
            rw [ih hrest fun g hg => hf g (List.mem_cons_of_mem _ hg)]
            exact h

namespace Build

variable {b : Build} {t t' : FileTree} {i : Input} {report : BuildReport}

theorem input_ok : (b.input t).1 = .ok i ↔ b.scan.files t = .ok i.files ∧ readContent t i.files = .ok i.content ∧
    Metadata.load t (b.root.join b.config.metaDir) = .ok i.metadata := by
  obtain ⟨files, content, metadata⟩ := i
  unfold input readFiles
  cases b.scan.files t with
  | error e => simp
  | ok files' =>
      simp only [Except.ok.injEq]
      cases hc : readContent t files' with
      | error e =>
          refine iff_of_false nofun ?_
          rintro ⟨rfl, h, -⟩
          rw [hc] at h
          cases h
      | ok content' =>
          simp only [Except.map]
          cases Metadata.load t (b.root.join b.config.metaDir) with
          | error e => simp
          | ok metadata' =>
              simp only [Except.ok.injEq, Input.mk.injEq]
              refine and_congr_right fun hf => ?_
              rw [← hf, hc, Except.ok.injEq]

theorem input_eq {files : List Path} {content : String} {m : Metadata} (hfiles : b.readFiles t = .ok (files, content))
    (hm : Metadata.load t (b.root.join b.config.metaDir) = .ok m) :
    b.input t = (.ok { files, content, metadata := m }, [scanned files]) := by
  unfold input
  rw [hfiles, hm]

theorem customCss_cons (file : Path) (files : List Path) : b.customCss t (file :: files) =
    match t.readText (b.root.join file) with
    | .ok text => (text ++ "\n" ++ (b.customCss t files).1, (b.customCss t files).2)
    | .error e => ((b.customCss t files).1,
        .warn ("Custom CSS file not found: " ++ (b.root.join file).text ++ " (" ++ e.message ++ ")") ::
          (b.customCss t files).2) := by
  rfl

theorem fst_customCss_cons (file : Path) (files : List Path) : (b.customCss t (file :: files)).1 =
    (t.readText (b.root.join file)).toOption.elim "" (· ++ "\n") ++ (b.customCss t files).1 := by
  rw [customCss_cons]
  cases t.readText (b.root.join file) with
  | error e => exact String.empty_append.symm
  | ok text => simp only [Except.toOption, Option.elim_some]

theorem customCss_congr {files : List Path}
    (h : ∀ file ∈ files, (t'.readText (b.root.join file)).toOption = (t.readText (b.root.join file)).toOption) :
    (b.customCss t' files).1 = (b.customCss t files).1 := by
  induction files with
  | nil => rfl
  | cons file files ih =>
      rw [fst_customCss_cons, fst_customCss_cons, h file List.mem_cons_self,
        ih fun g hg => h g (List.mem_cons_of_mem _ hg)]

theorem output_css (i : Input)
    (h : (b.customCss t' b.config.customCss).1 = (b.customCss t b.config.customCss).1) :
    (b.output t' i).css = (b.output t i).css := by
  unfold output
  dsimp only
  rw [h]

/-! ## Writing -/

/-- The font that is written, where it goes, and the font that it is cut out of. -/
theorem writeFont_ok {m : Metadata} {used : List String} {font : Option (Path × Font.Subset)} :
    (b.writeFont t m used).1 = .ok (t', font) ↔
      (∃ e, t.read (b.root.join b.config.font) = .error e) ∧ t' = t ∧ font = none ∨
      ∃ bytes, t.read (b.root.join b.config.font) = .ok bytes ∧
        t.write (b.root.join b.config.fontPath) (Font.subset bytes m used b.subsetter).bytes = .ok t' ∧
        font = some (b.root.join b.config.fontPath, Font.subset bytes m used b.subsetter) := by
  unfold writeFont
  dsimp only
  cases t.read (b.root.join b.config.font) with
  | error e => simp [eq_comm]
  | ok bytes =>
      dsimp only
      cases hw : t.write (b.root.join b.config.fontPath) (Font.subset bytes m used b.subsetter).bytes with
      | error e => simp [hw]
      | ok made => simp [hw, eq_comm (a := t'), eq_comm (a := font)]

theorem writeFont_error {m : Metadata} {used : List String} {e : BuildError} : (b.writeFont t m used).1 = .error e ↔
    ∃ bytes cause, t.read (b.root.join b.config.font) = .ok bytes ∧
      t.write (b.root.join b.config.fontPath) (Font.subset bytes m used b.subsetter).bytes = .error cause ∧
      e = .cannotWrite (b.root.join b.config.fontPath) cause := by
  unfold writeFont
  dsimp only
  cases t.read (b.root.join b.config.font) with
  | error cause => simp
  | ok bytes =>
      dsimp only
      cases hw : t.write (b.root.join b.config.fontPath) (Font.subset bytes m used b.subsetter).bytes with
      | error cause => simp [hw, eq_comm]
      | ok made => simp [hw]

/-- The two files have different names, so the font is not written over the stylesheet. -/
theorem not_samePlace_generated (b : Build) :
    ¬ t.SamePlace (b.root.join b.config.cssPath) (b.root.join b.config.fontPath) := by
  rintro ⟨l, hcss, hfont⟩
  have hlast := FileTree.getLast?_of_locate (by decide : IsName Config.cssName) hcss
  rw [FileTree.getLast?_of_locate (by decide : IsName Config.fontName) hfont] at hlast
  revert hlast
  decide

inductive Succeeds (b : Build) (t : FileTree) : BuildReport → FileTree → Prop
  | mk {i : Input} {made styled after : FileTree} {font : Option (Path × Font.Subset)}
      (hread : (b.input t).1 = .ok i)
      (hmade : t.makeDirs (b.root.join b.config.outputDir) = .ok made)
      (hstyled : made.write (b.root.join b.config.cssPath) (b.output t i).css.toUTF8 = .ok styled)
      (hfont : (b.writeFont styled i.metadata (b.output t i).aggregator.usedIcons.toList).1 = .ok (after, font)) :
      Succeeds b t
        { filesScanned := i.files.length
          tokens := (b.output t i).tokens.length
          rules := (b.output t i).aggregator.buckets.ruleCount
          cssPath := b.root.join b.config.cssPath
          font } after

/-- How a build can end, and the tree then. -/
inductive Outcome (b : Build) (t : FileTree) : Except BuildError BuildReport → FileTree → Prop where
  | unread {e : BuildError} (hread : (b.input t).1 = .error e) : Outcome b t (.error e) t
  | noDirectory {i : Input} {e : FileError} (hread : (b.input t).1 = .ok i)
      (h : t.makeDirs (b.root.join b.config.outputDir) = .error e) :
      Outcome b t (.error (.cannotCreate (b.root.join b.config.outputDir) e))
        (t.makeDirsLeft (b.root.join b.config.outputDir))
  | noStylesheet {i : Input} {made : FileTree} {e : FileError} (hread : (b.input t).1 = .ok i)
      (hmade : t.makeDirs (b.root.join b.config.outputDir) = .ok made)
      (h : made.write (b.root.join b.config.cssPath) (b.output t i).css.toUTF8 = .error e) :
      Outcome b t (.error (.cannotWrite (b.root.join b.config.cssPath) e)) made
  | noFont {i : Input} {made styled : FileTree} {e : BuildError} (hread : (b.input t).1 = .ok i)
      (hmade : t.makeDirs (b.root.join b.config.outputDir) = .ok made)
      (hstyled : made.write (b.root.join b.config.cssPath) (b.output t i).css.toUTF8 = .ok styled)
      (h : (b.writeFont styled i.metadata (b.output t i).aggregator.usedIcons.toList).1 = .error e) :
      Outcome b t (.error e) styled
  | succeeded {report : BuildReport} {after : FileTree} (h : Succeeds b t report after) : Outcome b t (.ok report) after

theorem outcome_run (b : Build) (t : FileTree) : Outcome b t (b.run t).result (b.run t).tree := by
  unfold run
  cases hin : b.input t with
  | mk read log =>
      have hread : (b.input t).1 = read := by rw [hin]
      cases read with
      | error e => exact .unread hread
      | ok i =>
          dsimp only
          cases hmade : t.makeDirs (b.root.join b.config.outputDir) with
          | error e =>
              dsimp only
              exact .noDirectory hread hmade
          | ok made =>
              dsimp only
              cases hstyled : made.write (b.root.join b.config.cssPath) (b.output t i).css.toUTF8 with
              | error e => exact .noStylesheet hread hmade hstyled
              | ok styled =>
                  dsimp only
                  cases hfont : b.writeFont styled i.metadata (b.output t i).aggregator.usedIcons.toList with
                  | mk written fontLog =>
                      cases written with
                      | error e => exact .noFont hread hmade hstyled (by rw [hfont])
                      | ok written => exact .succeeded (.mk hread hmade hstyled (by rw [hfont]))

theorem Outcome.run {result : Except BuildError BuildReport} (h : Outcome b t result t') :
    (b.run t).result = result ∧ (b.run t).tree = t' := by
  have hlog (read : Except BuildError Input) (h : (b.input t).1 = read) : ∃ log, b.input t = (read, log) :=
    ⟨(b.input t).2, by rw [← h]⟩
  cases h with
  | unread hread =>
      obtain ⟨log, hin⟩ := hlog _ hread
      simp only [Build.run, hin, and_self]
  | noDirectory hread h =>
      obtain ⟨log, hin⟩ := hlog _ hread
      simp only [Build.run, hin, h, and_self]
  | noStylesheet hread hmade h =>
      obtain ⟨log, hin⟩ := hlog _ hread
      simp only [Build.run, hin, hmade, h, and_self]
  | @noFont i made _ e hread hmade hstyled h =>
      obtain ⟨log, hin⟩ := hlog _ hread
      cases hout : b.writeFont t' i.metadata (b.output t i).aggregator.usedIcons.toList with
      | mk written fontLog =>
          rw [hout] at h
          cases h
          simp only [Build.run, hin, hmade, hstyled, hout, and_self]
  | succeeded h =>
      cases h with
      | @mk i made styled _ font hread hmade hstyled hfont =>
          obtain ⟨log, hin⟩ := hlog _ hread
          cases hout : b.writeFont styled i.metadata (b.output t i).aggregator.usedIcons.toList with
          | mk written fontLog =>
              rw [hout] at hfont
              cases hfont
              simp only [Build.run, hin, hmade, hstyled, hout, and_self]

theorem succeeds_of_run (h : (b.run t).result = .ok report) : Succeeds b t report (b.run t).tree := by
  have houtcome := outcome_run b t
  rw [h] at houtcome
  generalize (b.run t).tree = after at houtcome ⊢
  cases houtcome with
  | succeeded h => exact h

theorem Succeeds.run (h : Succeeds b t report t') : (b.run t).result = .ok report ∧ (b.run t).tree = t' :=
  (Outcome.succeeded h).run

end Build

end UtilityCss
