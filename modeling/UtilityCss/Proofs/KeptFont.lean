import UtilityCss.Proofs.IconGlyphs

/-!
# The font is never lost

A subsetter is asked once if an icon in use has a glyph, and otherwise not at all. Whatever it answers, a font is
written: the subset that it made, or the full font.
-/

namespace UtilityCss.Font

variable {σ : Type} {service : Service σ} {font : ByteArray} {m : Metadata} {used : List String} {s after : σ}
  {cs : List Char} {out : Subset}

/-! ## What is asked -/

/-- The glyphs of the icons in use: one for each that has a readable code point, in their order. -/
inductive Glyphs (m : Metadata) : List String → List Char → Prop where
  | nil : Glyphs m [] []
  | keep {base : String} {c : Char} {used : List String} {cs : List Char} (h : HasGlyph m base c)
      (rest : Glyphs m used cs) : Glyphs m (base :: used) (c :: cs)
  | skip {base : String} {used : List String} {cs : List Char} (h : ∀ c, ¬ HasGlyph m base c)
      (rest : Glyphs m used cs) : Glyphs m (base :: used) cs

theorem Glyphs.eq_filterMap (h : Glyphs m used cs) : used.filterMap (glyph? m) = cs := by
  induction h with
  | nil => rfl
  | keep hc _ ih => rw [List.filterMap_cons_some (glyph?_eq_some.mpr hc), ih]
  | skip hnone _ ih =>
      rw [List.filterMap_cons_none, ih]
      exact Option.eq_none_iff_forall_ne_some.mpr fun c hc => hnone c (glyph?_eq_some.mp hc)

theorem glyphs_filterMap (m : Metadata) (used : List String) : Glyphs m used (used.filterMap (glyph? m)) := by
  induction used with
  | nil => exact .nil
  | cons base used ih =>
      cases hg : glyph? m base with
      | none =>
          rw [List.filterMap_cons_none hg]
          refine .skip (fun c hc => ?_) ih
          rw [glyph?_eq_some.mpr hc] at hg
          cases hg
      | some c =>
          rw [List.filterMap_cons_some hg]
          exact .keep (glyph?_eq_some.mp hg) ih

theorem glyphs_iff : Glyphs m used cs ↔ used.filterMap (glyph? m) = cs :=
  ⟨Glyphs.eq_filterMap, fun h => h ▸ glyphs_filterMap m used⟩

/-- The request for a subset with these glyphs. -/
def requestFor (cs : List Char) : Request := { text := String.ofList cs, format := .woff2 }

theorem subsetWith_of_nil (h : Glyphs m used []) :
    subsetWith service font m used s =
      ({ bytes := font, outcome := .noIcons, log := [.info "No icons to subset, copying full font..."] }, s) := by
  have hempty : (iconText m used).isEmpty = true := by rw [iconText, h.eq_filterMap]; rfl
  simp only [subsetWith, hempty, ↓reduceIte]

theorem subsetWith_of_ne (h : Glyphs m used cs) (hne : cs ≠ []) :
    subsetWith service font m used s =
      (ofAnswer font (requestFor cs) (service font (requestFor cs) s).1, (service font (requestFor cs) s).2) := by
  have htext : iconText m used = String.ofList cs := congrArg String.ofList h.eq_filterMap
  have hempty : ¬ (String.ofList cs).isEmpty = true := by simpa [String.isEmpty_iff] using hne
  simp only [subsetWith, htext, if_neg hempty]
  rfl

/-! ## What is written -/

/-- How the cutting of a font ends if the icons in use have the glyphs `cs`: with the font that is written, and with the
subsetter in the state `after`. -/
inductive Ends (service : Service σ) (font : ByteArray) (s : σ) (cs : List Char) (out : Subset) : σ → Prop where
  | unasked (hcs : cs = []) (hrequest : out.request = none) (houtcome : out.outcome = .noIcons)
      (hbytes : out.bytes = font) : Ends service font s cs out s
  | subsetted {after : σ} (hcs : cs ≠ []) (hrequest : out.request = some (requestFor cs))
      (hanswer : service font (requestFor cs) s = (.ok out.bytes, after)) (hsize : out.bytes.size ≠ 0)
      (houtcome : out.outcome = .subsetted font.size out.bytes.size) : Ends service font s cs out after
  | failed {reason : String} {after : σ} (hcs : cs ≠ []) (hrequest : out.request = some (requestFor cs))
      (hanswer : service font (requestFor cs) s = (.error reason, after)) (houtcome : out.outcome = .fallback reason)
      (hbytes : out.bytes = font) : Ends service font s cs out after
  | empty {bytes : ByteArray} {after : σ} (hcs : cs ≠ []) (hrequest : out.request = some (requestFor cs))
      (hanswer : service font (requestFor cs) s = (.ok bytes, after)) (hsize : bytes.size = 0)
      (houtcome : out.outcome = .fallback "subsetter returned an empty font") (hbytes : out.bytes = font) :
      Ends service font s cs out after

theorem ends_ofAnswer {answer : Except String ByteArray} (hcs : cs ≠ [])
    (hanswer : service font (requestFor cs) s = (answer, after)) :
    Ends service font s cs (ofAnswer font (requestFor cs) answer) after := by
  cases answer with
  | error reason => exact .failed hcs rfl hanswer rfl rfl
  | ok bytes =>
      by_cases hsize : bytes.size = 0
      · have hout : ofAnswer font (requestFor cs) (.ok bytes) =
            fallback font (requestFor cs) "subsetter returned an empty font" :=
          if_pos (beq_iff_eq.mpr hsize)
        rw [hout]
        exact .empty hcs rfl hanswer hsize rfl rfl
      · have hout : ofAnswer font (requestFor cs) (.ok bytes) =
            { bytes, outcome := .subsetted font.size bytes.size, request := some (requestFor cs) } :=
          if_neg (mt beq_iff_eq.mp hsize)
        rw [hout]
        exact .subsetted hcs rfl hanswer hsize rfl

theorem ends_subsetWith (service : Service σ) (font : ByteArray) (s : σ) (h : Glyphs m used cs) :
    Ends service font s cs (subsetWith service font m used s).1 (subsetWith service font m used s).2 := by
  by_cases hcs : cs = []
  · subst hcs
    rw [subsetWith_of_nil h]
    exact .unasked rfl rfl rfl rfl
  · rw [subsetWith_of_ne h hcs]
    exact ends_ofAnswer hcs rfl

namespace Ends

theorem noIcons_iff (h : Ends service font s cs out after) : out.outcome = .noIcons ↔ cs = [] := by
  cases h with
  | unasked hcs _ houtcome _ => exact iff_of_true houtcome hcs
  | subsetted hcs _ _ _ houtcome => exact iff_of_false (by rw [houtcome]; nofun) hcs
  | failed hcs _ _ houtcome _ => exact iff_of_false (by rw [houtcome]; nofun) hcs
  | empty hcs _ _ _ houtcome _ => exact iff_of_false (by rw [houtcome]; nofun) hcs

/-- The full font is kept for want of a subset exactly if the subsetter was asked and made none. -/
theorem fallback_iff (h : Ends service font s cs out after) : (∃ reason, out.outcome = .fallback reason) ↔
    cs ≠ [] ∧ ∀ bytes, (service font (requestFor cs) s).1 = .ok bytes → bytes.size = 0 := by
  cases h with
  | unasked hcs _ houtcome _ =>
      rw [houtcome]
      exact iff_of_false (fun ⟨_, h⟩ => nomatch h) fun h => h.1 hcs
  | subsetted _ _ hanswer hsize houtcome =>
      rw [houtcome, hanswer]
      exact iff_of_false (fun ⟨_, h⟩ => nomatch h) fun h => hsize (h.2 _ rfl)
  | failed hcs _ hanswer houtcome _ =>
      rw [hanswer]
      exact iff_of_true ⟨_, houtcome⟩ ⟨hcs, nofun⟩
  | empty hcs _ hanswer hsize houtcome _ =>
      rw [hanswer]
      refine iff_of_true ⟨_, houtcome⟩ ⟨hcs, ?_⟩
      rintro _ ⟨⟩
      exact hsize

theorem size_bytes (h : Ends service font s cs out after) (hfont : font.size ≠ 0) : out.bytes.size ≠ 0 := by
  cases h with
  | subsetted _ _ _ hsize _ => exact hsize
  | unasked _ _ _ hbytes => exact hbytes ▸ hfont
  | failed _ _ _ _ hbytes => exact hbytes ▸ hfont
  | empty _ _ _ _ _ hbytes => exact hbytes ▸ hfont

end Ends

/-! ## How often is asked -/

/-- The same subsetter, with a list of all that it was handed. -/
def recorded (service : Service σ) : Service (σ × List (ByteArray × Request)) := fun font request (s, calls) =>
  ((service font request s).1, (service font request s).2, calls ++ [(font, request)])

/-- A list of the calls changes nothing else. -/
theorem subsetWith_recorded (service : Service σ) (font : ByteArray) (s : σ) (calls : List (ByteArray × Request))
    (h : Glyphs m used cs) :
    subsetWith (recorded service) font m used (s, calls) =
      ((subsetWith service font m used s).1, (subsetWith service font m used s).2,
        calls ++ if cs = [] then [] else [(font, requestFor cs)]) := by
  by_cases hcs : cs = []
  · subst hcs
    rw [subsetWith_of_nil h, subsetWith_of_nil h, if_pos rfl, List.append_nil]
  · rw [subsetWith_of_ne h hcs, subsetWith_of_ne h hcs, if_neg hcs]
    rfl

/-! ## The theorem -/

/-- A subsetter of any behaviour is handed the full font once, with one character for each icon in use that has a
readable code point, or never if there is none. What is written is the subset that it made, and the full font if it was
not asked, failed, or made nothing. -/
theorem subset_keeps_font (service : Service σ) (font : ByteArray) (m : Metadata) (used : List String) (s : σ) :
    let run := subsetWith service font m used s
    ∃ cs, (∀ ds, Glyphs m used ds ↔ ds = cs) ∧ Ends service font s cs run.1 run.2 ∧
      (subsetWith (recorded service) font m used (s, [])).2.2 = (if cs = [] then [] else [(font, requestFor cs)]) ∧
      (run.1.outcome = .noIcons ↔ cs = []) ∧
      ((∃ reason, run.1.outcome = .fallback reason) ↔
        cs ≠ [] ∧ ∀ bytes, (service font (requestFor cs) s).1 = .ok bytes → bytes.size = 0) ∧
      (font.size ≠ 0 → run.1.bytes.size ≠ 0) := by
  intro run
  have hglyphs := glyphs_filterMap m used
  have hends : Ends service font s (used.filterMap (glyph? m)) run.1 run.2 := ends_subsetWith service font s hglyphs
  refine ⟨used.filterMap (glyph? m), fun ds => glyphs_iff.trans eq_comm, hends, ?_, hends.noIcons_iff,
    hends.fallback_iff, hends.size_bytes⟩
  rw [subsetWith_recorded service font s [] hglyphs, List.nil_append]

/-- A subsetter that is busy at its first request: the full font, and then a subset with the home icon twice. -/
theorem subset_keeps_font_busy :
    let service : Service Nat := fun _ request n =>
      (if n = 0 then .error "busy" else .ok request.text.toUTF8, n + 1)
    let font : ByteArray := ⟨#[0, 1]⟩
    let used := ["if-blank", "is-star", "if-home", "if-missing", "if-home"]
    let first := subsetWith service font mixedIcons used 0
    let second := subsetWith service font mixedIcons used first.2
    Glyphs mixedIcons used ['\ue900', '\ue900'] ∧ font.size ≠ 0 ∧
      first.1.outcome = .fallback "busy" ∧ first.1.bytes.size ≠ 0 ∧
      second.1.outcome = .subsetted 2 6 ∧ second.1.bytes.size ≠ 0 ∧ second.2 = 2 := by
  intro service font used first second
  have hfont : font.size ≠ 0 := by decide
  obtain ⟨-, -, -, -, -, -, hfirst⟩ := subset_keeps_font service font mixedIcons used 0
  obtain ⟨-, -, -, -, -, -, hsecond⟩ := subset_keeps_font service font mixedIcons used first.2
  exact ⟨glyphs_iff.mpr (by decide +kernel), hfont, by decide +kernel, hfirst hfont, by decide +kernel, hsecond hfont,
    by decide +kernel⟩

end UtilityCss.Font
