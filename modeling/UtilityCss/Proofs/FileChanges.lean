import UtilityCss.Files.Ignore
import UtilityCss.Proofs.PathNames

/-!
# What changes in a tree of files

Directories that are made and files that are written leave every directory where it is, so a path that led somewhere
leads there still. A directory that is there is not made again.
-/

namespace UtilityCss.FileTree

variable {t t' t'' : FileTree} {l l' : Location} {x : List Char} {xs ys : List (List Char)} {p q : Path}

/-! ## Steps -/

theorem dir_of_step (h : t.step l x = .ok l') : t.get? l = some .dir := by
  unfold step at h
  split at h
  · cases h
  · cases h
  · assumption

theorem step_filler (hl : t.get? l = some .dir) (hx : Component.ofPiece? x = none) : t.step l x = .ok l := by
  simp [step, hl, hx]

theorem step_name {s : String} (hx : Component.ofPiece? x = some (.name s)) (h : t.step l x = .ok l') :
    l' = l ++ [s] := by
  simp only [step, dir_of_step h, hx] at h
  split at h
  · cases h
  · cases h
    rfl

theorem step_isName (hx : '/' ∉ x) (hl : ∀ n ∈ l, IsName n) (h : t.step l x = .ok l') :
    ∀ n ∈ l', IsName n := by
  cases hc : Component.ofPiece? x with
  | none =>
      rw [step_filler (dir_of_step h) hc] at h
      cases h
      exact hl
  | some c =>
      cases c with
      | name s =>
          obtain rfl := step_name hc h
          intro n hn
          rcases List.mem_append.mp hn with hn | hn
          · exact hl n hn
          · exact List.mem_singleton.mp hn ▸ .of_ofPiece? hx hc
      | root | here | up =>
          simp only [step, dir_of_step h, hc, Except.ok.injEq] at h
          subst h
          first | exact hl | exact fun n hn => hl n (List.dropLast_subset _ hn)

theorem foldlM_append_ok : (xs ++ ys).foldlM t.step l = .ok l' ↔
    ∃ m, xs.foldlM t.step l = .ok m ∧ ys.foldlM t.step m = .ok l' := by
  rw [List.foldlM_append]
  cases xs.foldlM t.step l with
  | error e => exact iff_of_false nofun nofun
  | ok m => exact ⟨fun h => ⟨m, rfl, h⟩, fun ⟨_, hm, h⟩ => by cases hm; exact h⟩

theorem foldlM_cons_ok : (x :: xs).foldlM t.step l = .ok l' ↔
    ∃ m, t.step l x = .ok m ∧ xs.foldlM t.step m = .ok l' := by
  rw [List.foldlM_cons]
  cases t.step l x with
  | error e => exact iff_of_false nofun nofun
  | ok m => exact ⟨fun h => ⟨m, rfl, h⟩, fun ⟨_, hm, h⟩ => by cases hm; exact h⟩

theorem foldlM_singleton : [x].foldlM t.step l = t.step l x := by
  rw [List.foldlM_cons]
  cases t.step l x <;> rfl

theorem foldlM_filler (hxs : ∀ x ∈ xs, Component.ofPiece? x = none) (hl : t.get? l = some .dir) :
    xs.foldlM t.step l = .ok l := by
  induction xs with
  | nil => rfl
  | cons x xs ih =>
      exact foldlM_cons_ok.mpr ⟨l, step_filler hl (hxs x List.mem_cons_self),
        ih fun y hy => hxs y (List.mem_cons_of_mem _ hy)⟩

/-- Names lead down, whatever filler is between them. -/
theorem foldlM_names {ns : List String} (hxs : xs.filterMap Component.ofPiece? = ns.map .name)
    (h : xs.foldlM t.step l = .ok l') : l' = l ++ ns := by
  induction xs generalizing l ns with
  | nil =>
      obtain rfl : ns = [] := List.map_eq_nil_iff.mp hxs.symm
      cases h
      exact (List.append_nil _).symm
  | cons x xs ih =>
      obtain ⟨m, hm, h⟩ := foldlM_cons_ok.mp h
      cases hx : Component.ofPiece? x with
      | none =>
          rw [step_filler (dir_of_step hm) hx] at hm
          cases hm
          rw [List.filterMap_cons_none hx] at hxs
          exact ih hxs h
      | some c =>
          rw [List.filterMap_cons_some hx] at hxs
          cases ns with
          | nil => cases hxs
          | cons n ns =>
              obtain ⟨rfl, hrest⟩ := List.cons_eq_cons.mp hxs
              rw [ih hrest h, step_name hx hm, List.append_assoc, List.singleton_append]

/-- Whatever the steps, the nodes on the way have names. -/
theorem foldlM_isName (hxs : ∀ x ∈ xs, '/' ∉ x) (hl : ∀ n ∈ l, IsName n) (h : xs.foldlM t.step l = .ok l') :
    ∀ n ∈ l', IsName n := by
  induction xs generalizing l with
  | nil =>
      cases h
      exact hl
  | cons x xs ih =>
      obtain ⟨m, hm, h⟩ := foldlM_cons_ok.mp h
      exact ih (fun y hy => hxs y (List.mem_cons_of_mem _ hy)) (step_isName (hxs x List.mem_cons_self) hl hm) h

/-! ## Where a path leads -/

theorem node_ok {n : Node} : t.node p = .ok (l, n) ↔ t.locate p = .ok l ∧ t.get? l = some n := by
  unfold node
  split
  · rename_i hl
    simp [hl]
  · rename_i m hl
    rw [hl, Except.ok.injEq]
    split
    · rename_i hn
      exact iff_of_false nofun fun ⟨hm, h⟩ => by rw [← hm, hn] at h; cases h
    · rename_i k hn
      rw [Except.ok.injEq, Prod.mk.injEq]
      refine and_congr_right fun hm => ?_
      rw [← hm, hn, Option.some_inj]

theorem isDir_iff : t.isDir p = true ↔ ∃ l, t.locate p = .ok l ∧ t.get? l = some .dir := by
  simp only [← node_ok, isDir]
  split
  · rename_i l hn
    exact iff_of_true rfl ⟨l, hn⟩
  · rename_i hn
    exact iff_of_false nofun fun ⟨l, h⟩ => hn l h

theorem read_ok {bytes : ByteArray} :
    t.read p = .ok bytes ↔ ∃ l, t.locate p = .ok l ∧ t.get? l = some (.file bytes) := by
  simp only [← node_ok, read]
  split
  · rename_i hn
    exact iff_of_false nofun fun ⟨l, h⟩ => by rw [hn] at h; cases h
  · rename_i hn
    exact iff_of_false nofun fun ⟨l, h⟩ => by rw [hn] at h; cases h
  · rename_i l b hn
    constructor
    · intro h
      cases h
      exact ⟨l, hn⟩
    · rintro ⟨m, h⟩
      rw [hn] at h
      cases h
      rfl

theorem readText_ok {text : String} :
    t.readText p = .ok text ↔ ∃ bytes, t.read p = .ok bytes ∧ String.fromUTF8? bytes = some text := by
  unfold readText
  split
  · rename_i hr
    simp [hr]
  · rename_i bytes hr
    rw [hr]
    cases hb : String.fromUTF8? bytes <;> simp [hb]

theorem write_ok {bytes : ByteArray} : t.write p bytes = .ok t' ↔
    ∃ l, t.locate p = .ok l ∧ p.text.toList.getLast? ≠ some '/' ∧ t.get? l ≠ some .dir ∧
      t' = t.put l (.file bytes) := by
  unfold write
  cases t.locate p with
  | error e => exact iff_of_false nofun nofun
  | ok m =>
      simp only [Except.ok.injEq, exists_eq_left']
      by_cases hc : p.text.toList.getLast? = some '/' ∨ t.get? m = some .dir
      · rw [if_pos (by simpa using hc)]
        exact iff_of_false nofun fun ⟨hs, hd, _⟩ => hc.elim hs hd
      · rw [if_neg (by simpa using hc), Except.ok.injEq, eq_comm]
        obtain ⟨hs, hd⟩ := not_or.mp hc
        exact ⟨fun h => ⟨hs, hd, h⟩, fun h => h.2.2⟩

/-- Whether a file can be written does not depend on what is written. -/
theorem write_error_congr {e : FileError} (bytes bytes' : ByteArray) (h : t.write p bytes = .error e) :
    t.write p bytes' = .error e := by
  unfold write at h ⊢
  split at h
  · exact h
  · split at h
    · rw [if_pos ‹_›]
      exact h
    · cases h

/-- Where paths lead depends on the nodes alone, not on their order. -/
theorem locate_eq (h : t'.get? = t.get?) : t'.locate = t.locate := by
  have hstep : t'.step = t.step := by
    funext l x
    rw [step, step, h]
  funext p
  rw [locate, locate, steps, steps, hstep]

theorem read_eq (h : t'.get? = t.get?) : t'.read = t.read := by
  funext p
  rw [read, read, node, node, locate_eq h, h]

/-- Whether two paths lead to one place. -/
def SamePlace (t : FileTree) (p q : Path) : Prop := ∃ l, t.locate p = .ok l ∧ t.locate q = .ok l

instance (t : FileTree) (p q : Path) : Decidable (t.SamePlace p q) :=
  match hp : t.locate p with
  | .error _ => isFalse fun ⟨_, hl, _⟩ => nomatch hp.symm.trans hl
  | .ok m => decidable_of_iff (t.locate q = .ok m) ⟨fun hq => ⟨m, hp, hq⟩, fun ⟨_, hl, hq⟩ => by
      rw [hp] at hl
      cases hl
      exact hq⟩

/-! ## More directories -/

def KeepsDirs (t t' : FileTree) : Prop := ∀ l, t.get? l = some .dir → t'.get? l = some .dir

theorem foldlM_mono (hk : KeepsDirs t t') (h : xs.foldlM t.step l = .ok l') : xs.foldlM t'.step l = .ok l' := by
  induction xs generalizing l with
  | nil => exact h
  | cons x xs ih =>
      obtain ⟨m, hm, h⟩ := foldlM_cons_ok.mp h
      refine foldlM_cons_ok.mpr ⟨m, ?_, ih h⟩
      have hl := dir_of_step hm
      rw [step, hl] at hm
      rw [step, hk l hl]
      exact hm

theorem locate_mono (hk : KeepsDirs t t') (h : t.locate p = .ok l) : t'.locate p = .ok l := by
  unfold locate at h ⊢
  split at h
  · cases h
  · exact foldlM_mono hk h

def files (t : FileTree) : List (Location × ByteArray) :=
  t.entries.filterMap fun (l, n) =>
    match n with
    | .file bytes => some (l, bytes)
    | .dir => none

/-- Whether `t'` has the nodes of `t` and may have more directories. -/
structure MoreDirs (t t' : FileTree) : Prop where
  kept {l : Location} {n : Node} (h : t.get? l = some n) : t'.get? l = some n
  files : t'.files = t.files

theorem MoreDirs.refl (t : FileTree) : MoreDirs t t := ⟨id, rfl⟩

theorem MoreDirs.trans (h : MoreDirs t t') (h' : MoreDirs t' t'') : MoreDirs t t'' :=
  ⟨fun hn => h'.kept (h.kept hn), h'.files.trans h.files⟩

theorem MoreDirs.keepsDirs (h : MoreDirs t t') : KeepsDirs t t' := fun _ hl => h.kept hl

theorem MoreDirs.read {bytes : ByteArray} (h : MoreDirs t t') (hr : t.read p = .ok bytes) : t'.read p = .ok bytes := by
  obtain ⟨l, hl, hn⟩ := read_ok.mp hr
  exact read_ok.mpr ⟨l, locate_mono h.keepsDirs hl, h.kept hn⟩

theorem ne_nil_of_get? (h : t.get? l ≠ some .dir) : l ≠ [] := by
  rintro rfl
  exact h rfl

theorem filter_entries_of_get? (h : t.get? l = none) : t.entries.filter (·.1 ≠ l) = t.entries := by
  have hne : l ≠ [] := ne_nil_of_get? (by rw [h]; nofun)
  rw [get?, if_neg hne, List.lookup_eq_none_iff] at h
  refine List.filter_eq_self.mpr fun e he => ?_
  simpa using Ne.symm (by simpa using h e he)

theorem moreDirs_put (h : t.get? l = none) : MoreDirs t (t.put l .dir) := by
  have hne : l ≠ [] := ne_nil_of_get? (by rw [h]; nofun)
  refine ⟨fun {m n} hm => ?_, ?_⟩
  · have hml : m ≠ l := by
      rintro rfl
      rw [h] at hm
      cases hm
    rw [get?_put t hne, if_neg hml, hm]
  · rw [files, put, filter_entries_of_get? h]
    rfl

/-! ## Making directories -/

/-- The last piece that is not empty, the pieces before it and the empty ones behind it. -/
theorem eq_append_of_dropWhile {last : List Char} {before : List (List Char)}
    (h : xs.reverse.dropWhile (·.isEmpty) = last :: before) :
    ∃ es, xs = before.reverse ++ last :: es ∧ ∀ x ∈ es, Component.ofPiece? x = none := by
  refine ⟨(xs.reverse.takeWhile (·.isEmpty)).reverse, ?_, fun x hx => ?_⟩
  · rw [← List.reverse_inj, List.reverse_append, List.reverse_cons, List.reverse_reverse, List.reverse_reverse,
      List.append_assoc, List.singleton_append, ← h, List.takeWhile_append_dropWhile]
  · have hempty : x = [] := by simpa using List.mem_takeWhile_imp (List.mem_reverse.mp hx)
    rw [hempty]
    rfl

def LeadsToDir (t : FileTree) (xs : List (List Char)) : Prop := ∃ l, t.steps xs = .ok l ∧ t.get? l = some .dir

theorem mkdir_made (h : t.mkdir xs = .ok t') :
    ∃ l, t.get? l = none ∧ t' = t.put l .dir ∧ t'.get? l = some .dir ∧ t'.steps xs = .ok l := by
  unfold mkdir at h
  split at h
  · cases h
  · rename_i last before heq
    obtain ⟨es, rfl, hes⟩ := eq_append_of_dropWhile heq
    split at h
    · cases h
    · rename_i parent hparent
      split at h
      · cases h
      · rename_i l hl
        split at h
        · cases h
        · rename_i hnew
          have hnone : t.get? l = none := (by simpa using hnew : _ ∧ _).2
          cases h
          have hmore := moreDirs_put hnone
          have hdir : (t.put l .dir).get? l = some .dir := by
            rw [get?_put t (ne_nil_of_get? (by rw [hnone]; nofun)), if_pos rfl]
          refine ⟨l, hnone, rfl, hdir, foldlM_append_ok.mpr ⟨parent, foldlM_mono hmore.keepsDirs hparent,
            foldlM_cons_ok.mpr ⟨l, ?_, foldlM_filler hes hdir⟩⟩⟩
          exact foldlM_singleton ▸ foldlM_mono hmore.keepsDirs (foldlM_singleton.trans hl)

theorem mkdir_ok (h : t.mkdir xs = .ok t') : MoreDirs t t' ∧ LeadsToDir t' xs := by
  obtain ⟨l, hnone, rfl, hdir, hsteps⟩ := mkdir_made h
  exact ⟨moreDirs_put hnone, l, hsteps, hdir⟩

theorem mkdir_of_leadsToDir (h : LeadsToDir t xs) : t.mkdir xs = .error .alreadyExists := by
  obtain ⟨l, hl, hdir⟩ := h
  unfold mkdir
  split
  · rfl
  · rename_i last before heq
    obtain ⟨es, rfl, hes⟩ := eq_append_of_dropWhile heq
    obtain ⟨parent, hparent, hrest⟩ := foldlM_append_ok.mp hl
    obtain ⟨m, hm, hes'⟩ := foldlM_cons_ok.mp hrest
    -- The empty pieces lead nowhere, so it is the last other one that leads to the directory.
    have hstay : l = m ++ [] := foldlM_names (List.filterMap_eq_nil_iff.mpr hes) hes'
    obtain rfl : l = m := hstay.trans (List.append_nil m)
    rw [show t.steps before.reverse = .ok parent from hparent]
    simp only [hm]
    rw [if_pos (by simp [hdir])]

theorem orDir_of_leadsToDir (h : LeadsToDir t xs) (e : FileError) : t.orDir xs e = .ok t := by
  obtain ⟨l, hl, hdir⟩ := h
  simp [orDir, hl, hdir]

theorem orDir_ok {e : FileError} (h : t.orDir xs e = .ok t') : t' = t ∧ LeadsToDir t xs := by
  unfold orDir at h
  split at h
  · rename_i l hl
    split at h
    · rename_i hdir
      cases h
      exact ⟨rfl, l, hl, hdir⟩
    · cases h
  · cases h

theorem mkdir_orDir_ok (h : (t.mkdir xs).tryCatch (t.orDir xs) = .ok t') : MoreDirs t t' ∧ LeadsToDir t' xs := by
  cases hm : t.mkdir xs with
  | ok made =>
      rw [hm] at h
      cases h
      exact mkdir_ok hm
  | error e =>
      rw [hm] at h
      obtain ⟨rfl, hd⟩ := orDir_ok h
      exact ⟨MoreDirs.refl _, hd⟩

theorem mkdirs_ok {cs : List Component} (h : t.mkdirs xs cs = .ok t') : MoreDirs t t' ∧ LeadsToDir t' xs := by
  induction cs generalizing xs t t' with
  | nil => exact mkdir_orDir_ok h
  | cons c cs ih =>
      unfold mkdirs at h
      split at h
      · split at h
        · cases h
        · rename_i made hmade
          obtain ⟨hmore, hd⟩ := mkdir_orDir_ok h
          exact ⟨(ih hmade).1.trans hmore, hd⟩
      · obtain ⟨rfl, hd⟩ := orDir_ok h
        exact ⟨MoreDirs.refl _, hd⟩
      · rename_i made hmade
        cases h
        exact mkdir_ok hmade

theorem mkdirs_of_leadsToDir (h : LeadsToDir t xs) (cs : List Component) : t.mkdirs xs cs = .ok t := by
  have hmkdir := mkdir_of_leadsToDir h
  cases cs with
  | nil =>
      rw [mkdirs, hmkdir]
      exact orDir_of_leadsToDir h _
  | cons c cs =>
      rw [mkdirs, hmkdir]
      exact orDir_of_leadsToDir h _

theorem isDir_iff_leadsToDir :
    t.isDir p = true ↔ refusal? p = none ∧ LeadsToDir t (Text.pieces '/' p.text.toList) := by
  rw [isDir_iff, locate]
  cases refusal? p with
  | none => simp [LeadsToDir]
  | some e => simp

theorem makeDirs_ok (h : t.makeDirs p = .ok t') : MoreDirs t t' ∧ t'.isDir p = true := by
  unfold makeDirs at h
  split at h
  · cases h
  · rename_i hr
    obtain ⟨hmore, hd⟩ := mkdirs_ok h
    exact ⟨hmore, isDir_iff_leadsToDir.mpr ⟨hr, hd⟩⟩

theorem makeDirs_of_isDir (h : t.isDir p = true) : t.makeDirs p = .ok t := by
  obtain ⟨hr, hd⟩ := isDir_iff_leadsToDir.mp h
  rw [makeDirs, hr]
  exact mkdirs_of_leadsToDir hd _

/-! ## Writing files -/

/-- Whether `t'` differs from `t` in nothing but what is in the files at the locations `ls`. -/
structure Rewrites (ls : List Location) (t t' : FileTree) : Prop where
  same : ∀ l ∉ ls, t'.get? l = t.get? l
  dirs : ∀ l, t'.get? l = some .dir ↔ t.get? l = some .dir
  files : t'.files.filter (·.1 ∉ ls) = t.files.filter (·.1 ∉ ls)

variable {ls : List Location}

theorem Rewrites.refl (ls : List Location) (t : FileTree) : Rewrites ls t t :=
  ⟨fun _ _ => rfl, fun _ => Iff.rfl, rfl⟩

theorem Rewrites.trans (h : Rewrites ls t t') (h' : Rewrites ls t' t'') : Rewrites ls t t'' :=
  ⟨fun l hl => (h'.same l hl).trans (h.same l hl), fun l => (h'.dirs l).trans (h.dirs l), h'.files.trans h.files⟩

theorem files_put (t : FileTree) (l : Location) (bytes : ByteArray) :
    (t.put l (.file bytes)).files = (l, bytes) :: t.files.filter (·.1 ≠ l) := by
  simp only [files, put, List.filterMap_cons, List.filterMap_filter, List.filter_filterMap]
  congr 1
  refine List.filterMap_congr fun e _ => ?_
  obtain ⟨k, n⟩ := e
  cases n <;> by_cases hk : k = l <;> simp [hk, Option.filter]

theorem Rewrites.of_write {bytes : ByteArray} (h : t.write p bytes = .ok t') (hp : t.locate p = .ok l) (hl : l ∈ ls) :
    Rewrites ls t t' := by
  obtain ⟨m, hm, -, hdir, rfl⟩ := write_ok.mp h
  rw [hp] at hm
  cases hm
  have hget (l' : Location) : (t.put l (.file bytes)).get? l' = if l' = l then some (.file bytes) else t.get? l' :=
    get?_put t (ne_nil_of_get? hdir)
  refine ⟨fun l' hl' => ?_, fun l' => ?_, ?_⟩
  · have hne : l' ≠ l := fun he => hl' (he ▸ hl)
    rw [hget, if_neg hne]
  · by_cases he : l' = l
    · rw [hget, if_pos he, he]
      exact iff_of_false nofun hdir
    · rw [hget, if_neg he]
  · rw [files_put, List.filter_cons_of_neg (by simpa using hl), List.filter_filter]
    refine List.filter_congr fun e _ => ?_
    have hne : e.1 ∉ ls → e.1 ≠ l := fun he heq => he (heq ▸ hl)
    simpa using hne

theorem Rewrites.locate_ok (h : Rewrites ls t t') : t'.locate p = .ok l ↔ t.locate p = .ok l :=
  ⟨locate_mono fun l => (h.dirs l).mp, locate_mono fun l => (h.dirs l).mpr⟩

theorem Rewrites.read_ok (h : Rewrites ls t t') (hp : ∀ l ∈ ls, t'.locate p ≠ .ok l) {bytes : ByteArray} :
    t'.read p = .ok bytes ↔ t.read p = .ok bytes := by
  rw [FileTree.read_ok, FileTree.read_ok]
  refine exists_congr fun l => ?_
  rw [← h.locate_ok]
  refine and_congr_right fun hl => ?_
  rw [h.same l fun hmem => hp l hmem hl]

theorem Rewrites.readText (h : Rewrites ls t t') (hp : ∀ l ∈ ls, t'.locate p ≠ .ok l) :
    (t'.readText p).toOption = (t.readText p).toOption := by
  have hiff (text : String) : t'.readText p = .ok text ↔ t.readText p = .ok text := by
    rw [readText_ok, readText_ok]
    exact exists_congr fun bytes => and_congr_left fun _ => h.read_ok hp
  cases hr : t.readText p with
  | ok text => rw [(hiff text).mpr hr]
  | error e =>
      cases hr' : t'.readText p with
      | error e' => rfl
      | ok text =>
          rw [(hiff text).mp hr'] at hr
          cases hr

theorem read_of_write {bytes : ByteArray} (h : t.write p bytes = .ok t') : t'.read p = .ok bytes := by
  obtain ⟨l, hl, -, hdir, hput⟩ := write_ok.mp h
  have hplace := (Rewrites.of_write h hl (List.mem_singleton_self l)).locate_ok.mpr hl
  exact FileTree.read_ok.mpr ⟨l, hplace, by rw [hput, get?_put t (ne_nil_of_get? hdir), if_pos rfl]⟩

theorem read_after_write {bytes old : ByteArray} (h : t.write p bytes = .ok t') (hq : t.read q = .ok old) :
    ∃ new, t'.read q = .ok new := by
  obtain ⟨l, hl, -, hdir, rfl⟩ := write_ok.mp h
  obtain ⟨m, hm, hget⟩ := FileTree.read_ok.mp hq
  have hplace := (Rewrites.of_write h hl (List.mem_singleton_self l)).locate_ok.mpr hm
  have hput : (t.put l (.file bytes)).get? m = if m = l then some (.file bytes) else t.get? m :=
    get?_put t (ne_nil_of_get? hdir)
  by_cases hml : m = l
  · exact ⟨bytes, FileTree.read_ok.mpr ⟨m, hplace, by rw [hput, if_pos hml]⟩⟩
  · exact ⟨old, FileTree.read_ok.mpr ⟨m, hplace, by rw [hput, if_neg hml, hget]⟩⟩

theorem isDir_of_write {bytes : ByteArray} (h : t.write p bytes = .ok t') (hq : t.isDir q = true) : t'.isDir q = true := by
  obtain ⟨l, hl, hdir⟩ := isDir_iff.mp hq
  obtain ⟨m, hm, -, -, -⟩ := write_ok.mp h
  have hwrites := Rewrites.of_write h hm (List.mem_singleton_self m)
  exact isDir_iff.mpr ⟨l, hwrites.locate_ok.mpr hl, (hwrites.dirs l).mpr hdir⟩

/-- What is written elsewhere does not change what is read. -/
theorem read_apart {bytes old : ByteArray} (h : t.write p bytes = .ok t') (hpq : ¬ t'.SamePlace q p)
    (hq : t.read q = .ok old) : t'.read q = .ok old := by
  obtain ⟨m, hm, -, -, -⟩ := write_ok.mp h
  have hwrites := Rewrites.of_write h hm (List.mem_singleton_self m)
  refine (hwrites.read_ok fun l hl hlocate => ?_).mpr hq
  exact hpq ⟨l, hlocate, List.mem_singleton.mp hl ▸ hwrites.locate_ok.mpr hm⟩

theorem get?_put_self {n : Node} (h : t.get? l = some n) (hl : l ≠ []) : (t.put l n).get? = t.get? := by
  funext m
  rw [get?_put t hl]
  split
  · rename_i hm
    rw [hm, h]
  · rfl

/-- What is written where it stands already changes nothing. -/
theorem write_again {bytes : ByteArray} (hl : t.locate p = .ok l) (hs : p.text.toList.getLast? ≠ some '/')
    (h : t.get? l = some (.file bytes)) : ∃ t', t.write p bytes = .ok t' ∧ t'.get? = t.get? := by
  have hdir : t.get? l ≠ some .dir := by
    rw [h]
    nofun
  exact ⟨_, write_ok.mpr ⟨l, hl, hs, hdir, rfl⟩, get?_put_self h (ne_nil_of_get? hdir)⟩

/-! ## Joined paths -/

/-- The steps to a join pass where the steps to its base lead. -/
theorem steps_of_join (hq : q.isAbsolute = false) (h : t.steps (Text.pieces '/' (p.join q).text.toList) = .ok l) :
    ∃ m, t.steps (Text.pieces '/' p.text.toList) = .ok m ∧
      (Text.pieces '/' q.text.toList).foldlM t.step m = .ok l := by
  obtain ⟨xs, filler, hp, hf, hj⟩ := Path.pieces_join (p := p) hq
  rw [steps, hj] at h
  obtain ⟨m, hm, h⟩ := foldlM_append_ok.mp h
  obtain ⟨y, ys, hy⟩ := List.exists_cons_of_ne_nil (Text.pieces_ne_nil '/' q.text.toList)
  obtain ⟨k, hk, -⟩ := foldlM_cons_ok.mp (hy ▸ h)
  refine ⟨m, ?_, h⟩
  rw [hp]
  exact foldlM_append_ok.mpr ⟨m, hm, foldlM_filler hf (dir_of_step hk)⟩

theorem steps_of_locate (h : t.locate p = .ok l) : t.steps (Text.pieces '/' p.text.toList) = .ok l := by
  unfold locate at h
  split at h
  · cases h
  · exact h

theorem isName_of_locate (h : t.locate p = .ok l) : ∀ n ∈ l, IsName n :=
  foldlM_isName (fun _ => Text.not_mem_of_mem_pieces) (List.forall_mem_nil _) (steps_of_locate h)

/-- Names behind a base lead to the same names behind the location of the base. -/
theorem locate_join {base : Location} {ns : List String} (hq : q.isAbsolute = false) (hbase : t.locate p = .ok base)
    (hns : UtilityCss.steps q.text.toList = ns.map .name) (h : t.locate (p.join q) = .ok l) : l = base ++ ns := by
  obtain ⟨m, hm, h⟩ := steps_of_join hq (steps_of_locate h)
  rw [steps_of_locate hbase] at hm
  cases hm
  exact foldlM_names hns h

theorem getLast?_of_foldlM {n : String} (hn : IsName n)
    (h : (Text.pieces '/' (p.join ⟨n⟩).text.toList).foldlM t.step l = .ok l') : l'.getLast? = some n := by
  obtain ⟨xs, -, -, -, hj⟩ := Path.pieces_join (p := p) hn.isAbsolute
  rw [hj, hn.pieces] at h
  obtain ⟨m, -, h⟩ := foldlM_append_ok.mp h
  rw [foldlM_singleton] at h
  rw [step_name hn.2 h, List.getLast?_concat]

theorem getLast?_of_locate {n : String} (hn : IsName n) (h : t.locate (p.join (q.join ⟨n⟩)) = .ok l) :
    l.getLast? = some n := by
  cases hq : (q.join ⟨n⟩).isAbsolute with
  | false =>
      obtain ⟨m, -, h⟩ := steps_of_join hq (steps_of_locate h)
      exact getLast?_of_foldlM hn h
  | true =>
      have hsame : p.join (q.join ⟨n⟩) = q.join ⟨n⟩ := if_pos hq
      exact getLast?_of_foldlM hn (steps_of_locate (hsame ▸ h))

end UtilityCss.FileTree
