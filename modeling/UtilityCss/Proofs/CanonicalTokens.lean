import UtilityCss.Proofs.TokenMarks
import UtilityCss.Rule

/-!
# The displayed form of a token is canonical

Displaying writes the marks of a variant in one order, and parsing what was displayed gives the token back. So tokens
are displayed alike just if they are parsed alike, and a token and its displayed form have the same rule, but for the
name of the class.
-/

namespace UtilityCss

open Mark

/-! ## Writing a variant -/

namespace Variant

theorem describes_marks {v : Variant} (h : PseudoState.Ascending v.states) : v.Describes v.marks where
  breakpoint := by
    have hstates : (v.states.map Mark.state).filterMap breakpoint? = [] :=
      List.filterMap_eq_nil_iff.mpr fun m hm => by
        obtain ⟨s, -, rfl⟩ := List.mem_map.mp hm
        rfl
    have hdark : (if v.dark then [Mark.dark] else []).filterMap breakpoint? = [] := by
      split <;> rfl
    rw [lastBreakpoint?, marks, List.filterMap_append, List.filterMap_append, hstates, hdark, List.append_nil,
      List.append_nil]
    cases v.breakpoint <;> rfl
  ascending := h
  states := fun s => by simp [marks]
  dark := by simp [marks]

theorem ofMarks_marks {v : Variant} (h : PseudoState.Ascending v.states) : ofMarks v.marks = v :=
  (describes_ofMarks v.marks).eq (describes_marks h) rfl (fun _ => Iff.rfl) Iff.rfl

end Variant

namespace Token

theorem toList_join_text (ms : List Mark) : (String.join (ms.map Mark.text)).toList = texts ms := by
  induction ms with
  | nil => rfl
  | cons m ms ih => rw [List.map_cons, String.join_cons, String.toList_append, ih, texts_cons]

theorem display_eq (t : Token) : t.display = write t.variant.marks t.base := by
  rw [display, write, ← toList_join_text, String.ofList_toList]

/-- Displaying undoes nothing of parsing: the base shows no mark when it stands behind other ones. -/
theorem parse_display (token : String) : parse (parse token).display = parse token := by
  obtain ⟨ms, base, h⟩ := exists_parts token
  have hdisplay : Parts (parse token).display (parse token).variant.marks base := by
    rw [h.parse]
    exact ⟨display_eq _, h.bare⟩
  rw [hdisplay.parse, h.parse, Variant.ofMarks_marks (Variant.describes_ofMarks ms).ascending]

theorem display_inj {token token' : String} :
    (parse token).display = (parse token').display ↔ parse token = parse token' := by
  constructor
  · intro h
    rw [← parse_display token, h, parse_display]
  · exact congrArg display

end Token

/-! ## Rules -/

/-- Two rules that differ in nothing but the escaped class name: that of `t` in one, that of `u` in the other. -/
structure Rule.SameButName (t u : String) (r r' : Rule) : Prop where
  kind : r.kind = r'.kind
  declarations : r.declarations = r'.declarations
  mediaQuery : r.mediaQuery = r'.mediaQuery
  selector : ∃ before after, r.selector = before ++ "." ++ Selector.escape t ++ after ∧
    r'.selector = before ++ "." ++ Selector.escape u ++ after

theorem Rule.ofToken_sameButName (kind : RuleKind) (t u : String) (v : Variant) (ds : String) :
    SameButName t u (ofToken kind t v ds) (ofToken kind u v ds) where
  kind := rfl
  declarations := rfl
  mediaQuery := rfl
  selector := ⟨v.ancestor, v.stateSelectors ++ if kind = .icon then ":before" else "", by
    simp [ofToken, Selector.ofToken, String.append_assoc], by simp [ofToken, Selector.ofToken, String.append_assoc]⟩

/-- Two tokens get the same from a metadata store, but for the class name in their rules. -/
structure Token.ResolveAlike (m : Metadata) (t u : String) : Prop where
  eligible : (parse t).isEligible = (parse u).isEligible
  keyframes : (synthesis t m).keyframes = (synthesis u m).keyframes
  rule : Option.Rel (Rule.SameButName t u) (synthesis t m).rule (synthesis u m).rule

theorem Rule.rel_map_ofToken (kind : RuleKind) (t u : String) (v : Variant) (ds : Option String) :
    Option.Rel (SameButName t u) (ds.map (ofToken kind t v)) (ds.map (ofToken kind u v)) := by
  cases ds with
  | none => exact .none
  | some ds => exact .some (ofToken_sameButName kind t u v ds)

/-- What a token gets depends on what it is parsed to, but for the class name. -/
theorem synthesize_alike (m : Metadata) (t u base : String) (v : Variant) :
    (synthesize t base v m).keyframes = (synthesize u base v m).keyframes ∧
      Option.Rel (Rule.SameButName t u) (synthesize t base v m).rule (synthesize u base v m).rule := by
  unfold synthesize
  split
  · exact ⟨rfl, Rule.rel_map_ofToken .arbitrary t u v (some _)⟩
  · split
    · exact ⟨rfl, Rule.rel_map_ofToken .style t u v _⟩
    · split
      · exact ⟨rfl, Rule.rel_map_ofToken .icon t u v _⟩
      · exact ⟨rfl, .none⟩

theorem Token.resolveAlike {t u : String} (m : Metadata) (h : parse t = parse u) : ResolveAlike m t u where
  eligible := by rw [h]
  keyframes := by
    rw [synthesis, synthesis, h]
    exact (synthesize_alike m t u _ _).1
  rule := by
    rw [synthesis, synthesis, h]
    exact (synthesize_alike m t u _ _).2

/-- The displayed form of a token is parsed to the same, stands for all tokens that are parsed to the same and for no
others, and gets the same from every metadata store. -/
theorem Token.display_isCanonical (token : String) :
    parse (parse token).display = parse token ∧
      (∀ token', (parse token).display = (parse token').display ↔ parse token = parse token') ∧
      ∀ m, ResolveAlike m token (parse token).display :=
  ⟨parse_display token, fun _ => display_inj, fun m => resolveAlike m (parse_display token).symm⟩

end UtilityCss
