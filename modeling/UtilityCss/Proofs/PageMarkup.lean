import UtilityCss.Proofs.Attributes
import UtilityCss.Proofs.Batching
import UtilityCss.Proofs.CompleteStylesheet
import UtilityCss.Proofs.SessionText

/-!
# A source text and the page made of it

A build finds class attributes in a text, a page is told of them. For the same attributes both see the same words, and
what the build leaves out of them makes no difference: the stylesheet of the build is what the page appends.
-/

namespace UtilityCss

/-! ## Written attributes -/

namespace Markup

/-- Texts in which the attributes `values` are written, with anything but quotes between them. -/
inductive Written : List String → List Char → Prop where
  | plain {x : List Char} (hx : QuoteFree x) : Written [] x
  | attr {x before after rest : List Char} {keyword value : String} {q : Char} {values : List String}
      (hx : QuoteFree x) (hk : keyword = "class" ∨ keyword = "className") (hb : Blank before) (ha : Blank after)
      (hq : isQuote q = true) (hv : QuoteFree value.toList) (hrest : Written values rest) :
      Written (value :: values)
        (x ++ keyword.toList ++ before ++ '=' :: after ++ q :: value.toList ++ q :: rest)

theorem Written.values_eq {values : List String} {text : List Char} (h : Written values text) :
    Markup.values text = values.map String.toList := by
  induction h with
  | plain hx => exact values_quoteFree hx
  | @attr x before after rest keyword value q values hx hk hb ha hq hv hrest ih =>
      have hvalues : _ = value.toList :: Markup.values rest := values_append hx (.mk hk hb ha hq) hv hq
      rw [List.map_cons, ← ih, ← hvalues]
      simp

theorem Written.tokens_eq {values : List String} {text : String} (h : Written values text.toList) :
    tokens text = values.flatMap fun v => (Text.words v.toList).map String.ofList := by
  rw [tokens, h.values_eq, List.flatMap_map]

end Markup

/-! ## Tokens that a build leaves out -/

namespace Aggregator

variable {m : Metadata}

theorem fresh_filter_eligible (m : Metadata) (ts : List String) (a : Aggregator) :
    a.fresh m (ts.filter fun t => isEligible (baseOf t)) = a.fresh m ts := by
  have heligible : ∀ t, Token.contributes m t = true → isEligible (baseOf t) = true :=
    fun t h => (Bool.and_eq_true_iff.mp h).1
  unfold fresh
  rw [List.filter_filter]
  congr 1
  refine List.filter_congr fun t _ => ?_
  cases h : Token.contributes m t with
  | false => rfl
  | true => rw [heligible t h]; rfl

/-- Repetitions make no difference, and neither does what was looked at before. -/
theorem fresh_firstsBy {seen : List String} {a : Aggregator} (ts : List String)
    (h : ∀ t ∈ seen, t ∈ a.resolved ∨ Token.contributes m t = false) :
    a.fresh m (firstsBy id seen ts) = a.fresh m ts := by
  -- A token that is met is either resolved from then on or never contributes, so `h` holds of it too.
  induction ts generalizing seen a with
  | nil => rfl
  | cons t ts ih =>
      by_cases hseen : id t ∈ seen
      · rw [firstsBy_cons_of_mem hseen, fresh_cons_skip (h t hseen)]
        exact ih h
      · rw [firstsBy_cons_of_not_mem hseen]
        by_cases hskip : t ∈ a.resolved ∨ Token.contributes m t = false
        · rw [fresh_cons_skip hskip, fresh_cons_skip hskip]
          refine ih fun u hu => ?_
          rcases List.mem_append.mp hu with hu | hu
          · exact h u hu
          · exact List.mem_singleton.mp hu ▸ hskip
        · obtain ⟨hn, hc⟩ := not_or.mp hskip
          have hc : Token.contributes m t = true := by simpa using hc
          rw [fresh_cons_new hn hc, fresh_cons_new hn hc]
          congr 1
          refine ih fun u hu => ?_
          rcases List.mem_append.mp hu with hu | hu
          · exact (h u hu).imp_left (List.mem_append_left _)
          · exact Or.inl (List.mem_append_right _ hu)

/-- The classes of a text do to a fresh aggregator what all its tokens do. -/
theorem absorb_classes (m : Metadata) (text : String) :
    ({} : Aggregator).absorb m (Markup.classes text) = ({} : Aggregator).absorb m (Markup.tokens text) := by
  have hfresh : ({} : Aggregator).fresh m (Markup.classes text) = ({} : Aggregator).fresh m (Markup.tokens text) := by
    rw [Markup.classes, ← firstsBy_id_nil, fresh_firstsBy _ fun _ h => absurd h List.not_mem_nil,
      fresh_filter_eligible]
  rw [absorb_eq, absorb_eq, hfresh]

end Aggregator

/-! ## The page -/

namespace Session

variable (m : Metadata) (family url : String) (window : Nat) (attrs : List String)

theorem aggregator_scan_start :
    ((start m family url { window }).scan attrs).1.aggregator =
      (({} : Aggregator).absorb m (tokens attrs)).1 := by
  rw [scan_eq]
  rfl

theorem sink_onFrame (s : Session) : s.onFrame.sink = s.sink ++ s.frames.flush.2.toList := rfl

theorem sink_scan (s : Session) : (s.scan attrs).1.sink = s.sink := by
  rw [scan_eq]

/-- The first frame appends all that the first scan found. -/
theorem sink_first_frame :
    let page := ((start m family url { window }).scan attrs).1
    page.onFrame.sink = preamble family url ::
      (if page.aggregator.stylesheet = "" then [] else [page.aggregator.stylesheet]) := by
  intro page
  have hcss : page.aggregator.stylesheet = ((start m family url { window }).found attrs).css := by
    rw [aggregator_scan_start, Aggregator.stylesheet, Aggregator.absorb_eq, Buckets.empty_append, found,
      Aggregator.absorb_eq]
    rfl
  have hpending : page.frames.pending = page.aggregator.stylesheet := by
    rw [hcss]
    simp only [page, scan_eq, FrameQueue.pending_queue]
    exact String.empty_append
  have hsink : page.sink = [preamble family url] := sink_scan attrs _
  rw [sink_onFrame, hsink, ← hpending]
  split
  · rename_i h
    rw [FrameQueue.flush_empty h]
    rfl
  · rename_i h
    rw [FrameQueue.flush_of_ne h]
    rfl

end Session

/-! ## The theorem -/

/-- A build that finds the attributes in a text and a page that scans them see the same words and get to the same
state, and the first frame of the page appends the stylesheet of the build. -/
theorem build_agrees_with_page {values : List String} {text : String} (h : Markup.Written values text.toList)
    (m : Metadata) (family url : String) (window : Nat) :
    let built := (({} : Aggregator).absorb m (Markup.classes text)).1
    let page := ((Session.start m family url { window }).scan values).1
    Markup.tokens text = values.flatMap (fun v => (Text.words v.toList).map String.ofList) ∧
      page.aggregator = built ∧
      page.onFrame.sink = preamble family url :: (if built.stylesheet = "" then [] else [built.stylesheet]) ∧
      page.onFrame.css = preamble family url ++ built.stylesheet := by
  intro built page
  have haggregator : page.aggregator = built := by
    rw [Session.aggregator_scan_start m family url window values]
    simp only [built, Aggregator.absorb_classes, h.tokens_eq]
    rfl
  have hsink : page.onFrame.sink = preamble family url :: (if built.stylesheet = "" then [] else [built.stylesheet]) := by
    rw [← haggregator]
    exact Session.sink_first_frame m family url window values
  refine ⟨h.tokens_eq, haggregator, hsink, ?_⟩
  rw [Session.css, hsink]
  split
  · rename_i hempty
    simp [hempty]
  · simp

/-- Two attributes with keywords in front of them and inside of a value, and with one class twice. -/
theorem build_agrees_with_page_keywords :
    let values := ["is-p-[4px] class= className", "md:is-p-[4px] is-p-[4px]"]
    let text := "class = className=\"is-p-[4px] class= className\" class class\n=\t'md:is-p-[4px] is-p-[4px]'>"
    let built := (({} : Aggregator).absorb {} (Markup.classes text)).1
    let page := ((Session.start {} "IconForge" "iconforge.woff2" { window := 16 }).scan values).1
    Markup.Written values text.toList ∧ page.aggregator = built ∧
      Markup.tokens text = ["is-p-[4px]", "class=", "className", "md:is-p-[4px]", "is-p-[4px]"] ∧
      page.onFrame.css = preamble "IconForge" "iconforge.woff2" ++
        (".is-p-\\[4px\\] \x7b padding: 4px; \x7d\n" ++
          "@media (min-width: 768px) \x7b\n  .md\\:is-p-\\[4px\\] \x7b padding: 4px; \x7d\n\x7d\n") := by
  intro values text built page
  have hend : Markup.Written [] ['>'] := .plain (by decide)
  have hsecond : Markup.Written ["md:is-p-[4px] is-p-[4px]"] " class class\n=\t'md:is-p-[4px] is-p-[4px]'>".toList :=
    @Markup.Written.attr " class ".toList ['\n'] ['\t'] ['>'] "class" "md:is-p-[4px] is-p-[4px]" '\'' []
      (by decide) (Or.inl rfl) (by decide) (by decide) rfl (by decide) hend
  have htext : text.toList = "class = ".toList ++ "className".toList ++ [] ++ '=' :: [] ++
      '"' :: "is-p-[4px] class= className".toList ++ '"' :: " class class\n=\t'md:is-p-[4px] is-p-[4px]'>".toList := by
    decide +kernel
  have hwritten : Markup.Written values text.toList := by
    rw [htext]
    exact .attr (by decide) (Or.inr rfl) (by decide) (by decide) rfl (by decide) hsecond
  obtain ⟨htokens, haggregator, -, hcss⟩ := build_agrees_with_page hwritten {} "IconForge" "iconforge.woff2" 16
  have hstylesheet : built.stylesheet = ".is-p-\\[4px\\] \x7b padding: 4px; \x7d\n" ++
      "@media (min-width: 768px) \x7b\n  .md\\:is-p-\\[4px\\] \x7b padding: 4px; \x7d\n\x7d\n" := by
    decide +kernel
  refine ⟨hwritten, haggregator, htokens.trans (by decide +kernel), ?_⟩
  rw [← hstylesheet]
  exact hcss

end UtilityCss
