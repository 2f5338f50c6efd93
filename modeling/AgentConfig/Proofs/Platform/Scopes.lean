import AgentConfig.Proofs.Insertion
import AgentConfig.Proofs.Platform.Traceable

namespace AgentConfig

open List

theorem Header.exists_description {h : Header} (hscope : h.scope = .description) :
    ∃ text, h.description = some text ∧ text ≠ "" := by
  have hne : h.description.getD "" ≠ "" := by
    intro hempty
    simp only [scope, hempty] at hscope
    split_ifs at hscope
    all_goals simp_all
  cases hdescription : h.description with
  | none => exact absurd (by rw [hdescription]; rfl) hne
  | some text => exact ⟨text, rfl, by simpa [hdescription] using hne⟩

namespace Profile

variable {r : Rule} {text name : Text}

/-- Members of a header from which the scope of a rule is read, and its description if that is what
the rule is found by. -/
structure Conveys (members : Json.Members) (r : Rule) : Prop where
  ne_nil : members ≠ []
  nodup : (members.map (·.1)).Nodup
  read : ∃ entries header, Forall₂ Yaml.IsPrintable members entries ∧
    Header.ofMapping ⟨.ofEntries entries, entries⟩ = .ok header ∧
    header.scope = r.scope ∧ (r.scope = .description → header.description = r.description)

theorem isPrintable_alwaysApply (b : Bool) :
    Yaml.IsPrintable ("alwaysApply", .bool b) (.str "alwaysApply", .bool b) :=
  .bool (by decide) (by decide) b

theorem conveys_alwaysApply {b : Bool} (h : r.scope = if b then .always else .manual) :
    Conveys [("alwaysApply", .bool b)] r := by
  refine ⟨cons_ne_nil _ _, nodup_singleton _, [(.str "alwaysApply", .bool b)],
    { alwaysApply := some b }, .cons (isPrintable_alwaysApply b) .nil, rfl, ?_, ?_⟩
  · rw [h]
    cases b <;> rfl
  · intro hscope
    cases b <;> cases h.symm.trans hscope

theorem conveys_globs (h : r.scope = .glob) (globs : Text) :
    Conveys [("globs", .str globs), ("alwaysApply", .bool false)] r := by
  refine ⟨cons_ne_nil _ _, show (["globs", "alwaysApply"] : List Text).Nodup by decide,
    [(.str "globs", .str globs), (.str "alwaysApply", .bool false)],
    { globs := some [globs], alwaysApply := some false },
    .cons (.str (by decide) (by decide) globs) (.cons (isPrintable_alwaysApply false) .nil),
    rfl, h.symm, ?_⟩
  intro hscope
  cases h.symm.trans hscope

theorem conveys_description (h : r.scope = .description)
    (htext : r.description = some text) (hne : text ≠ "") :
    Conveys [("description", .str text), ("alwaysApply", .bool false)] r := by
  refine ⟨cons_ne_nil _ _, show (["description", "alwaysApply"] : List Text).Nodup by decide,
    [(.str "description", .str text), (.str "alwaysApply", .bool false)],
    { description := some text, alwaysApply := some false },
    .cons (.str (by decide) (by decide) text) (.cons (isPrintable_alwaysApply false) .nil),
    rfl, ?_, fun _ => htext.symm⟩
  rw [h]
  simp [Header.scope, hne]

theorem resolve_text (field : Field Rule) (r : Rule)
    (hkey : field.key ≠ "alwaysApply") (hvalue : field.value r = .str text) (hne : text ≠ "") :
    Field.resolve [field, .constant "alwaysApply" (.bool false)] r =
      [(field.key, .str text), ("alwaysApply", .bool false)] := by
  have hworth : Field.isWorthwhile (.str text) = true := by
    cases text with
    | nil => exact absurd rfl hne
    | cons l text => rfl
  simp only [Field.resolve, Field.resolveInto, foldl_cons, foldl_nil, hvalue, hworth, if_true]
  simp [Field.constant, Field.isWorthwhile, Json.Members.put, hkey]

theorem conveys_cursor {d : Document} (hglobs : (d.toRule name).scope = .glob →
      Text.intercalate "," ((d.toRule name).globs.getD []) ≠ "") :
    Conveys (Field.resolve (cursor.rules (d.toRule name).scope).fields (d.toRule name))
      (d.toRule name) := by
  cases hscope : (d.toRule name).scope with
  | always => exact conveys_alwaysApply (b := true) hscope
  | manual => exact conveys_alwaysApply (b := false) hscope
  | glob =>
    have hresolve := resolve_text (.globText "globs") (d.toRule name) (by decide) rfl
      (hglobs hscope)
    exact hresolve ▸ conveys_globs hscope _
  | description =>
    obtain ⟨text, htext, hne⟩ := Header.exists_description hscope
    have hdescription : Described.description (d.toRule name) = text := by
      change d.header.description.getD "" = text
      rw [htext]
      rfl
    have hvalue : (Field.descriptionOrName "description").value (d.toRule name) = .str text := by
      simp only [Field.descriptionOrName, hdescription]
      rw [if_neg (fun h => hne (isEmpty_iff.mp h))]
    have hresolve := resolve_text (.descriptionOrName "description") _ (by decide) hvalue hne
    exact hresolve ▸ conveys_description hscope htext hne

theorem Conveys.exists_document {members : Json.Members} (h : Conveys members r)
    (before body : Text) :
    ∃ back, Document.ofText (Marker.add (before ++ ".mdc") (Page.document members body)) =
        .ok back ∧
      back.header.scope = r.scope ∧
      (r.scope = .description → back.header.description = r.description) := by
  obtain ⟨entries, header, hprintable, hheader, hread⟩ := h.read
  obtain ⟨below, hpage, -⟩ := Page.exists_document h.ne_nil body
  obtain ⟨marked, hmarked⟩ := Marker.exists_add_mdc hprintable before below
  refine ⟨⟨header, Text.trim marked⟩, ?_, hread⟩
  rw [hpage, hmarked, Document.header_ofText h.ne_nil hprintable h.nodup, hheader]
  rfl

theorem path_cursor {g : Guidance} {file : RuleFile} (h : file ∈ cursor.ruleFiles g.rules) :
    file.file.path = ".cursor/rules/" ++ file.rule.name ++ ".mdc" := by
  have horderly : cursor.isOrderly = true := isOrderly_of_mem_defaults (by simp [defaults])
  obtain ⟨t, position, ht, hpath⟩ := path_ruleFile horderly h
  obtain rfl : Template.around ".cursor/rules/" ".mdc" = t := Option.some.inj ht
  rw [hpath]
  simp [Template.fill, Template.around, Text.intercalate, List.intercalate, cursor, Naming.fileName]

/-- Every rule of a document has its file in the cursor directory, and a reader of the marked file
finds the scope of the rule, and its description if the rule is found by that. -/
theorem cursor_keeps_scope (g : Guidance) (d : Document) (name : Text)
    (hr : d.toRule name ∈ g.rules)
    (hglobs : (d.toRule name).scope = .glob →
      Text.intercalate "," ((d.toRule name).globs.getD []) ≠ "") :
    (∃ file ∈ cursor.ruleFiles g.rules, file.rule = d.toRule name) ∧
      ∀ file ∈ cursor.ruleFiles g.rules, file.rule = d.toRule name →
        file.file ∈ (cursor.generate g).files ∧
        file.file.path = ".cursor/rules/" ++ name ++ ".mdc" ∧
        ∃ back, Document.ofText (Marker.add file.file.path file.file.content) = .ok back ∧
          back.header.scope = (d.toRule name).scope ∧
          ((d.toRule name).scope = .description →
            back.header.description = (d.toRule name).description) := by
  refine ⟨?_, ?_⟩
  · have hpath : (cursor.rules (d.toRule name).scope).path =
        some (.around ".cursor/rules/" ".mdc") := by
      cases (d.toRule name).scope <;> rfl
    obtain ⟨position, hfile⟩ := exists_ruleFile hr hpath
    exact ⟨_, hfile, rfl⟩
  · intro file hfile hrule
    have hkept : file.file ∈ (cursor.generate g).files :=
      (kept_or_dropped (.inl rfl) hfile).resolve_right (fun h => absurd h.1 (by decide))
    have hpath := path_cursor hfile
    obtain ⟨r, -, path, position, -, rfl⟩ := mem_ruleFiles hfile
    obtain rfl : r = d.toRule name := hrule
    refine ⟨hkept, hpath, ?_⟩
    rw [hpath]
    exact (conveys_cursor hglobs).exists_document _ _

/-- A description that has to be escaped, with a line of dashes in it. -/
theorem cursor_keeps_description_with_dashes :
    ∃ d : Document, d.header.scope = .description ∧
      d.header.description = some "no: [a]\n---\n# \t'b' " ∧
      ∃ file ∈ (cursor.generate { rules := [d.toRule "pick"] }).files,
        ∃ back, Document.ofText (Marker.add file.path file.content) = .ok back ∧
          back.header.scope = d.header.scope ∧ back.header.description = d.header.description := by
  let d : Document := { header := { description := some "no: [a]\n---\n# \t'b' " } }
  have hscope : d.header.scope = .description := by decide
  obtain ⟨⟨file, hfile, hrule⟩, hall⟩ := cursor_keeps_scope { rules := [d.toRule "pick"] } d "pick"
    List.mem_cons_self (fun h => absurd h (by decide))
  obtain ⟨hmem, -, back, hback, hsame, hdescription⟩ := hall file hfile hrule
  exact ⟨d, hscope, rfl, file.file, hmem, back, hback, hsame, hdescription hscope⟩

end Profile

end AgentConfig
