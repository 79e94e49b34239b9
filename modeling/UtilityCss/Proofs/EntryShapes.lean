import UtilityCss.Rule
import UtilityCss.Proofs.BracePairs
import UtilityCss.Proofs.PlainObjects
import Mathlib.Data.List.Nodup
import Mathlib.Logic.Relation

/-!
# The shapes of entries

However the entries of a document are written, what is kept of them is brought to one form: trimmed declarations,
keyframes that are not blank, and no style without either. The same entries in other shapes give the same metadata.
-/

namespace UtilityCss
namespace Metadata

/-! ## What is kept of an entry -/

/-- The form of what is kept of any entry. -/
structure Tidy (source : RuleSource) : Prop where
  declarations : ∀ ds, source.declarations = some ds → ds ≠ "" ∧ Text.trim ds.toList = ds.toList
  keyframes : ∀ block, source.keyframes = some block → Text.trim block.toList ≠ []

/-- The form of metadata that were read from documents. -/
structure Normal (m : Metadata) : Prop where
  icons : ∀ e ∈ m.icons, Tidy e.2 ∧ e.2.keyframes = none
  styles : ∀ e ∈ m.styles, Tidy e.2 ∧ (e.2.declarations.isSome ∨ e.2.keyframes.isSome)

theorem tidy_of_iconSource? {entry : Json} {source : RuleSource} (h : iconSource? entry = some source) :
    Tidy source ∧ source.keyframes = none := by
  obtain ⟨rule, -, rfl⟩ := Option.map_eq_some_iff.mp h
  exact ⟨{ declarations := fun ds hds => Declarations.trim_of_ofRule? hds, keyframes := fun _ hk => nomatch hk }, rfl⟩

theorem tidy_of_styleSource? {entry : Json} {source : RuleSource} (h : styleSource? entry = some source) :
    Tidy source ∧ (source.declarations.isSome ∨ source.keyframes.isSome) := by
  obtain ⟨⟨rule, keyframes⟩, -, h⟩ := Option.bind_eq_some_iff.mp h
  simp only at h
  split at h
  · cases h
  · rename_i hkept
    cases h
    refine ⟨{ declarations := fun ds hds => ?_, keyframes := fun block hk => ?_ }, ?_⟩
    · obtain ⟨r, -, hr⟩ := Option.bind_eq_some_iff.mp hds
      exact Declarations.trim_of_ofRule? hr
    · have hblank := (Option.filter_eq_some_iff.mp hk).2
      simpa using hblank
    · rw [Bool.and_eq_true, not_and_or, Option.isNone_iff_eq_none, Option.isNone_iff_eq_none] at hkept
      exact hkept.imp Option.ne_none_iff_isSome.mp Option.ne_none_iff_isSome.mp

theorem mem_lastOfEach {α : Type} {e : String × α} {es : List (String × α)} (h : e ∈ lastOfEach es) : e ∈ es := by
  induction es with
  | nil => cases h
  | cons d es ih =>
      unfold lastOfEach at h
      split at h
      · exact List.mem_cons_of_mem _ (ih h)
      · rcases List.mem_cons.mp h with rfl | h
        · exact List.mem_cons_self
        · exact List.mem_cons_of_mem _ (ih h)

theorem exists_entry_of_mem_sources {source? : Json → Option RuleSource} {members : List (String × Json)}
    {e : String × RuleSource} (h : e ∈ sources source? members) :
    ∃ entry, (e.1, entry) ∈ members ∧ source? entry = some e.2 := by
  obtain ⟨⟨key, entry⟩, hm, he⟩ := List.mem_filterMap.mp h
  obtain ⟨source, hs, rfl⟩ := Option.map_eq_some_iff.mp he
  exact ⟨entry, mem_lastOfEach hm, hs⟩

theorem ofJson_eq_ok {icons styles : String} {m : Metadata} (h : ofJson icons styles = .ok m) :
    ∃ is ss, Json.readObject icons = .ok is ∧ Json.readObject styles = .ok ss ∧
      m = { icons := sources iconSource? is, styles := sources styleSource? ss } := by
  unfold ofJson at h
  split at h
  · cases h
  · split at h
    · cases h
    · cases h
      exact ⟨_, _, by assumption, by assumption, rfl⟩

theorem normal_of_ofJson {icons styles : String} {m : Metadata} (h : ofJson icons styles = .ok m) : m.Normal := by
  obtain ⟨is, ss, -, -, rfl⟩ := ofJson_eq_ok h
  constructor
  · intro e he
    obtain ⟨entry, -, hs⟩ := exists_entry_of_mem_sources he
    exact tidy_of_iconSource? hs
  · intro e he
    obtain ⟨entry, -, hs⟩ := exists_entry_of_mem_sources he
    exact tidy_of_styleSource? hs

theorem mem_of_style? {m : Metadata} {base : String} {source : RuleSource} (h : m.style? base = some source) :
    (base, source) ∈ m.styles := by
  obtain ⟨before, after, hs, -⟩ := List.lookup_eq_some_iff.mp h
  rw [hs]
  simp

/-- A base that stands for a style contributes something. -/
theorem Normal.not_isEmpty_synthesize {m : Metadata} (h : m.Normal) {base : String} {source : RuleSource}
    (hs : m.style? base = some source) (token : String) (v : Variant) :
    (synthesize token base v m).isEmpty = false := by
  unfold synthesize
  cases Arbitrary.declarationsOf? base with
  | some ds => simp [Synthesis.isEmpty]
  | none =>
      obtain ⟨-, hkept⟩ : Tidy source ∧ (source.declarations.isSome ∨ source.keyframes.isSome) :=
        h.styles _ (mem_of_style? hs)
      rcases hkept with hd | hk
      · obtain ⟨ds, hds⟩ := Option.isSome_iff_exists.mp hd
        simp [hs, hds, Synthesis.isEmpty]
      · obtain ⟨block, hb⟩ := Option.isSome_iff_exists.mp hk
        simp [hs, hb, Synthesis.isEmpty]

/-! ## Documents -/

/-- The field that holds the rule text of an entry. -/
def ruleField : Document → String
  | .icons => "value"
  | .styles => "class"

/-- The fields of an entry that are looked at. -/
def fields : Document → List String
  | .icons => ["value"]
  | .styles => ["class", "keyframes"]

/-- What is kept of an entry. -/
def source? : Document → Json → Option RuleSource
  | .icons => iconSource?
  | .styles => styleSource?

/-- A field is written at most once, as null or as a text. -/
def FieldTyped (name : String) (members : List (String × Json)) : Prop :=
  (members.filter (·.1 == name)).length ≤ 1 ∧ ∀ v, (name, v) ∈ members → v = .null ∨ ∃ s, v = .string s

/-- An entry that is no text and no object with proper fields. -/
def Foreign (d : Document) (entry : Json) : Prop :=
  (∀ s, entry ≠ .string s) ∧ ∀ members, entry = .object members → ∃ name ∈ fields d, ¬ FieldTyped name members

theorem fieldTyped_of_filter {name : String} {members found : List (String × Json)}
    (h : members.filter (·.1 == name) = found) (hlength : found.length ≤ 1)
    (hvalue : ∀ e ∈ found, e.2 = .null ∨ ∃ s, e.2 = .string s) : FieldTyped name members := by
  subst h
  exact ⟨hlength, fun v hv => hvalue (name, v) (List.mem_filter.mpr ⟨hv, by simp⟩)⟩

theorem textField?_eq_none {name : String} {members : List (String × Json)} (h : ¬ FieldTyped name members) :
    textField? name members = none := by
  unfold textField?
  split
  · exact absurd (fieldTyped_of_filter ‹_› (by simp) (by simp)) h
  · exact absurd (fieldTyped_of_filter ‹_› (by simp) (by simp)) h
  · exact absurd (fieldTyped_of_filter ‹_› (by simp) (by simp)) h
  · rfl

theorem source?_of_foreign {d : Document} {entry : Json} (h : Foreign d entry) : source? d entry = none := by
  obtain ⟨htext, hobject⟩ := h
  cases entry with
  | string s => exact absurd rfl (htext s)
  | object members =>
      obtain ⟨name, hname, hfield⟩ := hobject members rfl
      have hnone := textField?_eq_none hfield
      cases d with
      | icons =>
          obtain rfl := List.mem_singleton.mp hname
          simp [source?, iconSource?, iconRule?, hnone]
      | styles =>
          rcases List.mem_pair.mp hname with rfl | rfl
          · simp [source?, styleSource?, styleRule?, hnone]
          · simp [source?, styleSource?, styleRule?, hnone]
  | _ => cases d <;> rfl

theorem filter_eq_nil_of_absent {name : String} {members : List (String × Json)} (h : ∀ e ∈ members, e.1 ≠ name) :
    members.filter (·.1 == name) = [] :=
  List.filter_eq_nil_iff.mpr fun e he => by simpa using h e he

theorem textField?_absent {name : String} {members : List (String × Json)} (h : ∀ e ∈ members, e.1 ≠ name) :
    textField? name members = some none := by
  rw [textField?, filter_eq_nil_of_absent h]

theorem textField?_text {name text : String} {front back : List (String × Json)}
    (h : ∀ e ∈ front ++ back, e.1 ≠ name) :
    textField? name (front ++ (name, .string text) :: back) = some (some text) := by
  have hfront := filter_eq_nil_of_absent fun e he => h e (List.mem_append_left back he)
  have hback := filter_eq_nil_of_absent fun e he => h e (List.mem_append_right front he)
  rw [textField?, List.filter_append, List.filter_cons_of_pos (by simp), hfront, hback]
  rfl

/-- The object form of a rule text, with fields around it that are not looked at. -/
theorem source?_object {d : Document} {front back : List (String × Json)} {rule : String}
    (h : ∀ e ∈ front ++ back, e.1 ∉ fields d) :
    source? d (.object (front ++ (ruleField d, .string rule) :: back)) = source? d (.string rule) := by
  have habsent {name : String} (hn : name ∈ fields d) : ∀ e ∈ front ++ back, e.1 ≠ name :=
    fun e he heq => h e he (heq ▸ hn)
  cases d with
  | icons =>
      have hvalue : textField? "value" (front ++ ("value", .string rule) :: back) = some (some rule) :=
        textField?_text (habsent (by simp [fields]))
      simp only [source?, iconSource?, iconRule?, ruleField, hvalue]
      rfl
  | styles =>
      have hclass : textField? "class" (front ++ ("class", .string rule) :: back) = some (some rule) :=
        textField?_text (habsent (by simp [fields]))
      have hkeyframes : textField? "keyframes" (front ++ ("class", .string rule) :: back) = some none := by
        refine textField?_absent fun e he => ?_
        rcases List.mem_append.mp he with he | he
        · exact habsent (by simp [fields]) e (List.mem_append_left back he)
        · rcases List.mem_cons.mp he with rfl | he
          · simp
          · exact habsent (by simp [fields]) e (List.mem_append_right front he)
      simp only [source?, styleSource?, styleRule?, ruleField, hclass, hkeyframes]
      rfl

/-! ## Writing a document in another way -/

theorem lastOfEach_of_nodup {α : Type} {es : List (String × α)} (h : (es.map Prod.fst).Nodup) :
    lastOfEach es = es := by
  induction es with
  | nil => rfl
  | cons e es ih =>
      obtain ⟨he, hes⟩ := List.nodup_cons.mp h
      have hany : es.any (·.1 == e.1) = false := by
        refine List.any_eq_false.mpr fun e' he' hkey => he ?_
        rw [← eq_of_beq hkey]
        exact List.mem_map_of_mem he'
      rw [lastOfEach, hany, ih hes]
      rfl

/-- One entry of a document is written in another way: a rule text as an object, or an entry that means nothing is put
in under a new key or taken out. -/
inductive Respelled (d : Document) : List (String × Json) → List (String × Json) → Prop where
  | structured {before after front back : List (String × Json)} {key rule : String}
      (h : ∀ e ∈ front ++ back, e.1 ∉ fields d) :
      Respelled d (before ++ (key, .string rule) :: after)
        (before ++ (key, .object (front ++ (ruleField d, .string rule) :: back)) :: after)
  | added {before after : List (String × Json)} {key : String} {entry : Json}
      (hk : key ∉ (before ++ after).map Prod.fst) (h : Foreign d entry) :
      Respelled d (before ++ after) (before ++ (key, entry) :: after)
  | removed {before after : List (String × Json)} {key : String} {entry : Json} (h : Foreign d entry) :
      Respelled d (before ++ (key, entry) :: after) (before ++ after)

variable {d : Document} {es es' : List (String × Json)}

theorem Respelled.nodup (h : Respelled d es es') (hn : (es.map Prod.fst).Nodup) : (es'.map Prod.fst).Nodup := by
  cases h with
  | structured h => simpa using hn
  | added hk h =>
      rw [List.map_append, List.map_cons, List.nodup_middle, ← List.map_append]
      exact List.nodup_cons.mpr ⟨hk, hn⟩
  | removed h =>
      rw [List.map_append, List.map_cons, List.nodup_middle, ← List.map_append] at hn
      exact (List.nodup_cons.mp hn).2

theorem Respelled.sources (h : Respelled d es es') (hn : (es.map Prod.fst).Nodup) :
    sources (source? d) es = sources (source? d) es' := by
  unfold Metadata.sources
  rw [lastOfEach_of_nodup hn, lastOfEach_of_nodup (h.nodup hn)]
  cases h with
  | structured h => simp only [List.filterMap_append, List.filterMap_cons, source?_object h]
  | added hk h => simp [source?_of_foreign h]
  | removed h => simp [source?_of_foreign h]

theorem sources_of_respelled (h : Relation.ReflTransGen (Respelled d) es es') (hn : (es.map Prod.fst).Nodup) :
    (es'.map Prod.fst).Nodup ∧ Metadata.sources (source? d) es = Metadata.sources (source? d) es' := by
  induction h with
  | refl => exact ⟨hn, rfl⟩
  | tail _ hstep ih => exact ⟨hstep.nodup ih.1, ih.2.trans (hstep.sources ih.1)⟩

/-- A text is left as it is, or holds entries with distinct keys that the other text writes in other ways. -/
def Restated (d : Document) (text text' : String) : Prop :=
  text = text' ∨ ∃ es es', Json.readObject text = .ok es ∧ (es.map Prod.fst).Nodup ∧
    Relation.ReflTransGen (Respelled d) es es' ∧ Json.readObject text' = .ok es'

/-- What is kept of a document. -/
def kept (d : Document) (text : String) : Except Json.Fault (List (String × RuleSource)) :=
  (Json.readObject text).map (Metadata.sources (source? d))

theorem Restated.kept_eq {text text' : String} (h : Restated d text text') : kept d text = kept d text' := by
  rcases h with rfl | ⟨es, es', hes, hn, hsteps, hes'⟩
  · rfl
  · rw [kept, kept, hes, hes']
    exact congrArg Except.ok (sources_of_respelled hsteps hn).2

theorem ofJson_eq (icons styles : String) : ofJson icons styles =
    ((kept .icons icons).mapError (.malformed .icons)).bind fun is =>
      ((kept .styles styles).mapError (.malformed .styles)).map fun ss => { icons := is, styles := ss } := by
  unfold ofJson kept
  cases Json.readObject icons with
  | error e => rfl
  | ok is => cases Json.readObject styles <;> rfl

/-! ## Small documents -/

def plainIcons : String := "\x7b\"if-a\":\"b\"\x7d"

/-- The icon as an object, in front of an entry that names its rule twice. -/
def structuredIcons : String :=
  "\x7b\"if-a\":\x7b\"x\":\"y\",\"value\":\"b\"\x7d,\"if-z\":\x7b\"value\":\"p\",\"value\":\"q\"\x7d\x7d"

def plainStyles : String := "\x7b\"is-c\":\"d\"\x7d"

def structuredStyles : String := "\x7b\"is-c\":\x7b\"class\":\"d\",\"x\":\"y\"\x7d\x7d"

theorem readObject_plainIcons : Json.readObject plainIcons = .ok [("if-a", .string "b")] :=
  @Json.readObject_plain ("if-a".toList, "b".toList) [] (by decide)

theorem readObject_plainStyles : Json.readObject plainStyles = .ok [("is-c", .string "d")] :=
  @Json.readObject_plain ("is-c".toList, "d".toList) [] (by decide)

theorem readObject_structuredIcons : Json.readObject structuredIcons =
    .ok [("if-a", .object [("x", .string "y"), ("value", .string "b")]),
      ("if-z", .object [("value", .string "p"), ("value", .string "q")])] := by
  obtain ⟨_, hz⟩ := Json.Continues.close.read "if-z".toList (by decide)
    (@Json.value_object _ ("value".toList, "p".toList) [("value".toList, "q".toList)] (by decide) _)
  obtain ⟨_, h⟩ := Json.value_of_members ((Json.Continues.more hz).read "if-a".toList (by decide)
    (@Json.value_object _ ("x".toList, "y".toList) [("value".toList, "b".toList)] (by decide) _))
  exact Json.readObject_of_value (by decide) h

theorem readObject_structuredStyles : Json.readObject structuredStyles =
    .ok [("is-c", .object [("class", .string "d"), ("x", .string "y")])] := by
  obtain ⟨_, h⟩ := Json.value_of_members (Json.Continues.close.read "is-c".toList (by decide)
    (@Json.value_object _ ("class".toList, "d".toList) [("x".toList, "y".toList)] (by decide) _))
  exact Json.readObject_of_value (by decide) h

theorem restated_icons : Restated .icons plainIcons structuredIcons := by
  refine .inr ⟨_, _, readObject_plainIcons, by decide, ?_, readObject_structuredIcons⟩
  have hobject : Respelled .icons [("if-a", .string "b")]
      [("if-a", .object [("x", .string "y"), ("value", .string "b")])] :=
    @Respelled.structured .icons [] [] [("x", .string "y")] [] "if-a" "b" (by decide)
  have hforeign : Foreign .icons (.object [("value", .string "p"), ("value", .string "q")]) := by
    refine ⟨fun s h => (nomatch h), fun members h => ⟨"value", by decide, fun htyped => ?_⟩⟩
    cases h
    exact absurd htyped.1 (by decide)
  exact .tail (.single hobject) (@Respelled.added .icons [_] [] "if-z" _ (by decide) hforeign)

theorem restated_styles : Restated .styles plainStyles structuredStyles :=
  .inr ⟨_, _, readObject_plainStyles, by decide,
    .single (@Respelled.structured .styles [] [] [] [("x", .string "y")] "is-c" "d" (by decide)),
    readObject_structuredStyles⟩

theorem readObject_empty : Json.readObject "" = .error .unexpectedEnd := by
  have hv : Json.value Json.maxDepth [] = .error .unexpectedEnd := by
    unfold Json.value
    rfl
  simp [Json.readObject, Json.read, hv]

def plainMetadata : Metadata where
  icons := [("if-a", { declarations := some "b" })]
  styles := [("is-c", { declarations := some "d" })]

theorem ofJson_plain : ofJson plainIcons plainStyles = .ok plainMetadata := by
  rw [ofJson, readObject_plainIcons, readObject_plainStyles]
  decide +kernel

/-! ## The theorem -/

/-- Whatever the documents: what is read from them has one form, from which every style contributes something. Entries
in other shapes, and entries that mean nothing, make no difference. A document that cannot be read is an error, that of
the icons first. -/
theorem ofJson_normalizes (icons styles : String) :
    (∀ m, ofJson icons styles = .ok m → m.Normal ∧
      ∀ base source, m.style? base = some source → ∀ token v, (synthesize token base v m).isEmpty = false) ∧
      (∀ icons' styles', Restated .icons icons icons' → Restated .styles styles styles' →
        ofJson icons styles = ofJson icons' styles') ∧
      (∀ e, Json.readObject icons = .error e → ofJson icons styles = .error (.malformed .icons e)) ∧
      ∀ is, Json.readObject icons = .ok is →
        (∀ e, Json.readObject styles = .error e → ofJson icons styles = .error (.malformed .styles e)) ∧
          ∀ ss, Json.readObject styles = .ok ss → ∃ m, ofJson icons styles = .ok m := by
  refine ⟨fun m h => ⟨normal_of_ofJson h, fun base source hs => (normal_of_ofJson h).not_isEmpty_synthesize hs⟩, ?_, ?_, ?_⟩
  · intro icons' styles' hi hs
    rw [ofJson_eq, ofJson_eq, hi.kept_eq, hs.kept_eq]
  · intro e he
    rw [ofJson, he]
  · intro is hi
    refine ⟨fun e he => ?_, fun ss hs =>
      ⟨{ icons := Metadata.sources iconSource? is, styles := Metadata.sources styleSource? ss }, ?_⟩⟩
    · rw [ofJson, hi]
      simp only [he]
    · rw [ofJson, hi]
      simp only [hs]

/-- Both pairs of documents give the same metadata, in which the style contributes something. An empty text is no
document. -/
theorem ofJson_normalizes_structured :
    ofJson plainIcons plainStyles = ofJson structuredIcons structuredStyles ∧
      (∃ m, ofJson plainIcons plainStyles = .ok m) ∧ plainMetadata.Normal ∧
      (synthesize "is-c" "is-c" {} plainMetadata).isEmpty = false ∧
      ofJson "" plainStyles = .error (.malformed .icons .unexpectedEnd) ∧
      ofJson plainIcons "" = .error (.malformed .styles .unexpectedEnd) := by
  obtain ⟨hreads, hshapes, -, hstyles⟩ := ofJson_normalizes plainIcons plainStyles
  obtain ⟨-, -, hicons, -⟩ := ofJson_normalizes "" plainStyles
  obtain ⟨-, -, -, hfault⟩ := ofJson_normalizes plainIcons ""
  obtain ⟨hnormal, hcontributes⟩ := hreads _ ofJson_plain
  exact ⟨hshapes _ _ restated_icons restated_styles, (hstyles _ readObject_plainIcons).2 _ readObject_plainStyles,
    hnormal, hcontributes "is-c" _ rfl "is-c" {}, hicons _ readObject_empty,
    (hfault _ readObject_plainIcons).1 _ readObject_empty⟩

end Metadata
end UtilityCss
