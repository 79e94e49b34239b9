import UtilityCss.Proofs.Batching
import UtilityCss.Proofs.ExactlyOnce
import UtilityCss.Proofs.SessionText

/-!
# No change of a page is lost

As long as its metadata stay, a session is an aggregator that takes in class attributes in the order in which they
are processed, and the latest change of every node is processed or waits in the batch.
-/

namespace UtilityCss

/-! ## Calls with the same metadata -/

namespace Aggregator

theorem absorb_nil (m : Metadata) (a : Aggregator) : a.absorb m [] = (a, {}) :=
  absorb_of_fresh_eq_nil rfl

theorem afterPasses_same (m : Metadata) (tss : List (List String)) :
    (afterPasses (tss.map (Pass.mk m))).1 = (({} : Aggregator).absorb m tss.flatten).1 := by
  induction tss using List.reverseRecOn with
  | nil => rw [List.flatten_nil, absorb_nil]; rfl
  | append_singleton tss ts ih =>
      rw [List.map_append, List.map_cons, List.map_nil, afterPasses_snoc, ih, List.flatten_append,
        List.flatten_cons, List.flatten_nil, List.append_nil, absorb_append]

theorem resolvedUnder_of_same {ps : List Pass} {m : Metadata} {t : String} (h : ∀ p ∈ ps, p.metadata = m)
    (ht : t ∈ (afterPasses ps).1.resolved) : ResolvedUnder ps t m := by
  obtain ⟨m', hu, -⟩ := exists_resolvedUnder ht
  obtain ⟨before, p, after, rfl, rfl, hn, hr⟩ := hu
  exact ⟨before, p, after, rfl, h p (by simp), hn, hr⟩

theorem mem_resolved_absorb {m : Metadata} {ts : List String} {t : String} {r : Rule} (a : Aggregator) (h : t ∈ ts)
    (he : isEligible (baseOf t) = true) (hr : (Token.synthesis t m).rule = some r) :
    t ∈ (a.absorb m ts).1.resolved := by
  have hparsed : (Token.parse t).isEligible = true := he
  have hc : Token.contributes m t = true := by
    simp [Token.contributes, Synthesis.isEmpty, hparsed, hr]
  exact (looked_at m a h).resolve_right (by simp [hc])

/-- A rule that a pass wrote stands in exactly one of the deltas, and in its text. -/
theorem exists_only_delta {ps : List Pass} {t : String} {m : Metadata} {r : Rule} (hu : ResolvedUnder ps t m)
    (hr : (Token.synthesis t m).rule = some r) :
    ∃ d, (afterPasses ps).2.filter (r.css ∈ ·.rules) = [d] ∧ d.rules.count r.css = 1 ∧
      Holds d.css (r.css ++ "\n") := by
  have hmem : r.css ∈ (afterPasses ps).1.buckets.rules :=
    Buckets.mem_rules.mpr ⟨_, mem_rulesAt_afterPasses.mpr ⟨t, m, hu, rfl, congrArg (Option.map Rule.css) hr⟩⟩
  have hone := List.count_eq_one_of_mem (nodup_rules_afterPasses ps) hmem
  have hempty : ({} : Buckets).rules = [] := rfl
  rw [← deltas_afterPasses, Buckets.count_rules_foldl, hempty, List.count_nil, Nat.zero_add] at hone
  obtain ⟨d, hd, hcount⟩ := Buckets.exists_only_writer hone
  exact ⟨d, hd, hcount, Buckets.css_holds (List.count_pos_iff.mp (hcount ▸ Nat.one_pos))⟩

end Aggregator

namespace Session

/-! ## What a session takes in -/

/-- The class attributes that calls make a session take in, one list for each call that takes any in. -/
def intake : Session → List Call → List (List String)
  | _, [] => []
  | s, c :: cs => (s.attributes? c).toList ++ intake (s.call c).1 cs

theorem session_transcript (s : Session) (cs : List Call) :
    (transcript s cs).session = cs.foldl (fun s c => (s.call c).1) s := by
  induction cs using List.reverseRecOn with
  | nil => rfl
  | append_singleton cs c ih =>
      rw [transcript_snoc, List.foldl_append, ← ih]
      rfl

theorem intake_snoc (s : Session) (cs : List Call) (c : Call) :
    intake s (cs ++ [c]) = intake s cs ++ ((transcript s cs).session.attributes? c).toList := by
  rw [session_transcript]
  induction cs generalizing s with
  | nil => simp [intake]
  | cons d cs ih =>
      rw [List.cons_append, intake, ih, intake, List.append_assoc]
      rfl

theorem tokens_flatten (as : List (List String)) : tokens as.flatten = (as.map tokens).flatten := by
  induction as with
  | nil => rfl
  | cons a as ih => simp only [tokens, List.flatten_cons, List.flatMap_append, List.map_cons] at ih ⊢; rw [ih]

theorem aggregator_call (c : Call) (s : Session) :
    (s.call c).1.aggregator =
      (s.attributes? c).elim s.aggregator fun attrs => (s.aggregator.absorb s.metadata (tokens attrs)).1 := by
  cases c with
  | scan attrs => rfl
  | tick now =>
      simp only [call, tick, attributes?]
      cases hd : s.batch.drain now with
      | mk batch changes => cases changes <;> rfl
  | observe c now => rfl
  | frame => rfl
  | reload m => rfl

theorem metadata_call {c : Call} (h : ∀ m, c ≠ .reload m) (s : Session) : (s.call c).1.metadata = s.metadata := by
  cases c with
  | scan attrs => rfl
  | tick now => simp only [call, tick]; split <;> rfl
  | observe c now => rfl
  | frame => rfl
  | reload m => exact absurd rfl (h m)

/-- Without a change of metadata, a session is an aggregator that gets one pass for each intake. -/
theorem transcript_passes (m : Metadata) (family url : String) (batch : Batch) {cs : List Call}
    (h : ∀ m', Call.reload m' ∉ cs) :
    let t := transcript (start m family url batch) cs
    t.session.metadata = m ∧
      (t.session.aggregator, t.deltas) =
        Aggregator.afterPasses (((intake (start m family url batch) cs).map tokens).map (Pass.mk m)) := by
  intro t
  induction cs using List.reverseRecOn with
  | nil => exact ⟨rfl, rfl⟩
  | append_singleton cs c ih =>
      obtain ⟨hm, ha⟩ := ih fun m' hm' => h m' (List.mem_append_left _ hm')
      have hc : ∀ m', c ≠ .reload m' := fun m' he => h m' (by simp [he])
      simp only [t, transcript_snoc, intake_snoc]
      refine ⟨(metadata_call hc _).trans hm, ?_⟩
      simp only [Transcript.next, aggregator_call, delta?, hm]
      cases hattrs : (transcript (start m family url batch) cs).session.attributes? c with
      | none => simpa using ha
      | some attrs =>
          simp only [Option.elim_some, Option.map_some, Option.toList_some, List.map_append, List.map_cons, List.map_nil,
            Aggregator.afterPasses_snoc, ← ha, found, hm]

/-! ## The latest changes -/

def observed? (n : Nat) : Call → Option String
  | .observe c _ => if c.node = n then some c.classes else none
  | _ => none

/-- The class attribute with which `n` was observed last. -/
def latest? (n : Nat) (cs : List Call) : Option String := (cs.filterMap (observed? n)).getLast?

theorem latest?_snoc (n : Nat) (cs : List Call) (c : Call) :
    latest? n (cs ++ [c]) = (observed? n c).or (latest? n cs) := by
  cases h : observed? n c <;> simp [latest?, h]

end Session

namespace Batch

theorem mem_put_self (c : ClassChange) (ds : List ClassChange) : c ∈ put c ds := by
  induction ds with
  | nil => exact List.mem_cons_self
  | cons d ds ih =>
      unfold put
      split
      · exact List.mem_cons_self
      · exact List.mem_cons_of_mem _ ih

theorem mem_put_of_node_ne {c d : ClassChange} {ds : List ClassChange} (h : d.node ≠ c.node) (hd : d ∈ ds) :
    d ∈ put c ds := by
  induction ds with
  | nil => cases hd
  | cons e ds ih =>
      unfold put
      rcases List.mem_cons.mp hd with rfl | hd
      · rw [if_neg h]
        exact List.mem_cons_self
      · split
        · exact List.mem_cons_of_mem _ hd
        · exact List.mem_cons_of_mem _ (ih hd)

theorem drain_cases (now : Nat) (b : Batch) :
    b.drain now = (b, none) ∨ b.drain now = ({ window := b.window }, some b.pending) := by
  unfold drain
  split
  · exact Or.inr rfl
  · exact Or.inl rfl

end Batch

namespace Session

/-- What was scanned was taken in, and so was the latest change of each node, unless it waits in the batch. -/
structure KeepsUp (s : Session) (cs : List Call) : Prop where
  scanned : ∀ attrs, .scan attrs ∈ cs → ∀ attr ∈ attrs, attr ∈ (intake s cs).flatten
  latest : ∀ n classes, latest? n cs = some classes →
    ⟨n, classes⟩ ∈ (transcript s cs).session.batch.pending ∨ classes ∈ (intake s cs).flatten

theorem KeepsUp.start (s : Session) : KeepsUp s [] where
  scanned := fun _ h => nomatch h
  latest := fun _ _ h => nomatch h

theorem KeepsUp.snoc {s : Session} {cs : List Call} (h : KeepsUp s cs) (c : Call) : KeepsUp s (cs ++ [c]) where
  scanned := by
    intro attrs hs attr ha
    rw [intake_snoc, List.flatten_append]
    rcases List.mem_append.mp hs with hs | hs
    · exact List.mem_append_left _ (h.scanned attrs hs attr ha)
    · obtain rfl := List.mem_singleton.mp hs
      exact List.mem_append_right _ (by simpa [attributes?] using ha)
  latest := by
    intro n classes hl
    rw [latest?_snoc] at hl
    rw [transcript_snoc, intake_snoc, List.flatten_append]
    have hkept (hn : observed? n c = none) :
        ⟨n, classes⟩ ∈ (transcript s cs).session.batch.pending ∨ classes ∈ (intake s cs).flatten := by
      rw [hn, Option.none_or] at hl
      exact h.latest n classes hl
    cases c with
    | observe d now =>
        by_cases hn : d.node = n
        · have hd : d = ⟨n, classes⟩ := by
            have hc : d.classes = classes := by simpa [observed?, hn] using hl
            rw [← hn, ← hc]
          exact Or.inl (hd ▸ Batch.mem_put_self d _)
        · rcases hkept (by simp [observed?, hn]) with hp | hp
          · exact Or.inl (Batch.mem_put_of_node_ne (Ne.symm hn) hp)
          · exact Or.inr (List.mem_append_left _ hp)
    | tick now =>
        rcases hkept rfl with hp | hp
        · rcases Batch.drain_cases now (transcript s cs).session.batch with hd | hd
          · left
            simpa [Transcript.next, call, tick, hd] using hp
          · right
            refine List.mem_append_right _ ?_
            simpa [attributes?, hd] using ⟨_, hp, rfl⟩
        · exact Or.inr (List.mem_append_left _ hp)
    | scan attrs => exact (hkept rfl).imp id (List.mem_append_left _)
    | frame => exact (hkept rfl).imp id (List.mem_append_left _)
    | reload m => exact (hkept rfl).imp id (List.mem_append_left _)

theorem keepsUp (s : Session) (cs : List Call) : KeepsUp s cs := by
  induction cs using List.reverseRecOn with
  | nil => exact .start s
  | append_singleton cs c ih => exact ih.snoc c

/-! ## The theorem -/

/-- The class attributes that a page reports: those that it scans, and the latest one of each node that it observes. -/
def Reported (cs : List Call) (attr : String) : Prop :=
  (∃ attrs, .scan attrs ∈ cs ∧ attr ∈ attrs) ∨ ∃ n, latest? n cs = some attr

theorem mem_intake_of_reported {s : Session} {cs : List Call} {attr : String} (h : Reported cs attr)
    (he : (transcript s cs).session.batch.pending = []) : attr ∈ (intake s cs).flatten := by
  rcases h with ⟨attrs, hs, ha⟩ | ⟨n, hn⟩
  · exact (keepsUp s cs).scanned attrs hs attr ha
  · refine ((keepsUp s cs).latest n attr hn).resolve_left fun hp => ?_
    rw [he] at hp
    cases hp

/-- What is there when a frame came after calls that left nothing in the batch. -/
theorem onFrame_transcript (m : Metadata) (family url : String) (batch : Batch) (cs : List Call) :
    let final := transcript (start m family url batch) (cs ++ [.frame])
    final.session.css = preamble family url ++ String.join (final.deltas.map Buckets.css) := by
  intro final
  have htext := (balanced_transcript m family url batch (cs ++ [.frame])).text
  have hpending : final.session.frames.pending = "" := by
    simp only [final, transcript_snoc]
    rfl
  rwa [hpending, String.append_empty] at htext

/-- A session whose metadata stay, after calls that left nothing in the batch and a frame: every rule that the reported
class attributes ask for was written, in exactly one delta, and the state is that of one single pass over everything
that was processed. -/
theorem session_loses_no_update (m : Metadata) (family url : String) (window : Nat) (cs : List Call)
    (hm : ∀ m', Call.reload m' ∉ cs)
    (he : (transcript (start m family url { window }) cs).session.batch.pending = []) :
    let s := start m family url { window }
    let final := transcript s (cs ++ [.frame])
    (∀ attr, Reported cs attr → attr ∈ (intake s cs).flatten ∧
      ∀ t ∈ tokens [attr], isEligible (baseOf t) = true → ∀ r, (Token.synthesis t m).rule = some r →
        t ∈ final.session.aggregator.resolved ∧
          ∃ d, final.deltas.filter (r.css ∈ ·.rules) = [d] ∧ d.rules.count r.css = 1 ∧ Holds d.css (r.css ++ "\n")) ∧
      final.session.css = preamble family url ++ String.join (final.deltas.map Buckets.css) ∧
      final.session.aggregator = (({} : Aggregator).absorb m (tokens (intake s cs).flatten)).1 := by
  intro s final
  have hm' : ∀ m', Call.reload m' ∉ cs ++ [.frame] := fun m' hmem => hm m' (by simpa using hmem)
  have hin : intake s (cs ++ [.frame]) = intake s cs := by
    rw [intake_snoc]
    exact List.append_nil _
  obtain ⟨-, hpasses⟩ := transcript_passes m family url { window } hm'
  rw [hin] at hpasses
  obtain ⟨haggr, hdeltas⟩ := Prod.mk.inj hpasses
  have hstate : final.session.aggregator = (({} : Aggregator).absorb m (tokens (intake s cs).flatten)).1 := by
    rw [tokens_flatten, ← Aggregator.afterPasses_same]
    exact haggr
  refine ⟨fun attr hr => ?_, onFrame_transcript m family url { window } cs, hstate⟩
  have hattr := mem_intake_of_reported hr he
  refine ⟨hattr, fun t ht helig r hrule => ?_⟩
  have hmem : t ∈ tokens (intake s cs).flatten := by
    obtain ⟨a, ha, hta⟩ := List.mem_flatMap.mp ht
    exact List.mem_flatMap.mpr ⟨attr, hattr, List.mem_singleton.mp ha ▸ hta⟩
  have hres : t ∈ final.session.aggregator.resolved := hstate ▸ Aggregator.mem_resolved_absorb {} hmem helig hrule
  have hsame : ∀ p ∈ ((intake s cs).map tokens).map (Pass.mk m), p.metadata = m := by
    intro p hp
    obtain ⟨_, _, rfl⟩ := List.mem_map.mp hp
    rfl
  have hu := Aggregator.resolvedUnder_of_same hsame (haggr ▸ hres)
  exact ⟨hres, hdeltas ▸ Aggregator.exists_only_delta hu hrule⟩

/-- A node that changes twice inside a window, with a scan before, a tick that comes too early and a clock that goes
backwards. -/
theorem session_loses_no_update_overwritten :
    let cs := [Call.scan ["foo is-p-[4px]"], .observe ⟨1, "is-m-[1px]"⟩ 5, .tick 9, .observe ⟨1, "bar is-m-[2px]"⟩ 7,
      .frame, .tick 3, .tick 40]
    let after := transcript (start {} "IconForge" "iconforge.woff2" { window := 16 })
    let r : Rule := ⟨.arbitrary, ".is-m-\\[2px\\]", "margin: 2px;", none⟩
    (∀ m', Call.reload m' ∉ cs) ∧ (after cs).session.batch.pending = [] ∧
      "is-m-[2px]" ∈ (after (cs ++ [.frame])).session.aggregator.resolved ∧
      ∃ d, (after (cs ++ [.frame])).deltas.filter (r.css ∈ ·.rules) = [d] ∧ d.rules.count r.css = 1 ∧
        Holds d.css (r.css ++ "\n") := by
  intro cs after r
  have hm : ∀ m', Call.reload m' ∉ cs := by simp [cs]
  have he : (after cs).session.batch.pending = [] := by decide +kernel
  have hreported : Reported cs "bar is-m-[2px]" := Or.inr ⟨1, rfl⟩
  have ht : "is-m-[2px]" ∈ tokens ["bar is-m-[2px]"] := by decide +kernel
  have helig : isEligible (baseOf "is-m-[2px]") = true := by decide +kernel
  have hrule : (Token.synthesis "is-m-[2px]" {}).rule = some r := by decide +kernel
  have h := (session_loses_no_update {} "IconForge" "iconforge.woff2" 16 cs hm he).1 _ hreported
  exact ⟨hm, he, h.2 _ ht helig r hrule⟩

end Session
end UtilityCss
