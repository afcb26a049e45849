import BehaviorTree.Fault
import BehaviorTree.Proofs.Rendering

/-!
# Documents that are refused

A mapping is read in a role: as a document, as the definitions of one, as a node, or as the body of
a node. A body and the document have named fields, some of which they need; a node has one key, its
kind. Whatever breaks this at one place of a document that could be read makes the whole of it
unreadable, however deep the place is.
-/

namespace BehaviorTree

open Yaml (Path Failure Entry)

theorem bind_eq_ok_iff {ε α β : Type} {x : Except ε α} {f : α → Except ε β} {b : β} :
    x >>= f = .ok b ↔ ∃ a, x = .ok a ∧ f a = .ok b := by
  cases x <;> simp [bind, Except.bind]

theorem throw_ne_ok {ε α : Type} {fault : ε} {a : α} : (throw fault : Except ε α) ≠ .ok a := nofun

theorem Field.eq_of_word {f g : Field} (h : f.word = g.word) : f = g := by
  revert h
  cases f <;> cases g <;> decide

theorem NodeKind.eq_of_word {kind kind' : NodeKind} (h : kind.word = kind'.word) : kind = kind' := by
  revert h
  cases kind <;> cases kind' <;> decide

inductive Record where
  | document
  | body (kind : NodeKind)

namespace Record

def names : Record → List String
  | document => Document.fieldNames
  | body kind => kind.fields.map Field.word

def required : Record → List String
  | document => ["root"]
  | body kind => (kind.fields.filter kind.isRequired).map Field.word

end Record

inductive Role where
  | record (r : Record)
  | trees
  | node
  | children

namespace Role

def Accepts : Role → Path → Yaml.Node → Prop
  | record .document, path, value => ∃ d, Document.decode path value = .ok d
  | record (.body kind), path, value => ∃ spec, Spec.decodeBody kind path value = .ok spec
  | trees, path, value => ∃ table, Yaml.decodeTable Spec.decode path value = .ok table
  | node, path, value => ∃ spec, Spec.decode path value = .ok spec
  | children, path, value => ∃ specs, Spec.decodeChildren path value = .ok specs

inductive Holds : Role → String → Role → Prop
  | trees : Holds (record .document) "trees" trees
  | definition (name : String) : Holds trees name node
  | body (kind : NodeKind) : Holds node kind.word (record (.body kind))
  | child (kind : NodeKind) : Holds (record (.body kind)) Field.child.word node
  | children (kind : NodeKind) : Holds (record (.body kind)) Field.children.word children

end Role

/-- At one place the second value breaks what the first one keeps to: there is a key that names no
field, a field that is needed is taken out, or a node has no kind or something beside it. Elsewhere
the two may differ too, as they do where the place is referred to by an alias. -/
inductive Spoils : Role → Yaml.Node → Yaml.Node → Prop
  | strange {r : Record} {e : Entry Yaml.Node} (h : ∀ name ∈ r.names, e.key.text? ≠ some name)
    (tag : Option String) (before after : List (Entry Yaml.Node)) :
    Spoils (.record r) (.mapping tag (before ++ after)) (.mapping tag (before ++ e :: after))
  | needed {r : Record} {name : String} {e : Entry Yaml.Node} (h : name ∈ r.required)
    (hkey : e.key.text? = some name) (tag : Option String) (before after : List (Entry Yaml.Node)) :
    Spoils (.record r) (.mapping tag (before ++ e :: after)) (.mapping tag (before ++ after))
  | kindless {entries' : List (Entry Yaml.Node)}
    (h : ∀ e ∈ entries', ∀ kind : NodeKind, e.key.text? ≠ some kind.word)
    (tag : Option String) (entries : List (Entry Yaml.Node)) :
    Spoils .node (.mapping tag entries) (.mapping tag entries')
  | doubled {before after : List (Entry Yaml.Node)} (h : before ++ after ≠ [])
    (tag : Option String) (e : Entry Yaml.Node) :
    Spoils .node (.mapping tag (before ++ after)) (.mapping tag (before ++ e :: after))
  | entry {role inner : Role} {name : String} {entries entries' : List (Entry Yaml.Node)}
    {e e' : Entry Yaml.Node} (he : e ∈ entries) (he' : e' ∈ entries')
    (hkey : e.key.text? = some name) (hkey' : e'.key.text? = some name)
    (hinner : role.Holds name inner) (h : Spoils inner e.value e'.value) (tag tag' : Option String) :
    Spoils role (.mapping tag entries) (.mapping tag' entries')
  | item {items items' : List Yaml.Node} {value value' : Yaml.Node} (hitem : value ∈ items)
    (hitem' : value' ∈ items') (h : Spoils .node value value') (tag tag' : Option String) :
    Spoils .children (.sequence tag items) (.sequence tag' items')

theorem Spoils.isPresent {role : Role} {value value' : Yaml.Node} (h : Spoils role value value')
    (path path' : Path) :
    Yaml.isPresent path value = .ok true ∧ Yaml.isPresent path' value' = .ok true := by
  cases h <;> exact ⟨rfl, rfl⟩

/-! ## Names of fields and kinds -/

theorem decodeName_eq_ok_iff {kind : String} {path : Path} {node : Yaml.Node} {name : String} :
    Yaml.decodeName kind path node = .ok name ↔ node.text? = some name := by
  cases node with
  | scalar => simp [Yaml.decodeName, Yaml.Node.text?]
  | _ => simp [Yaml.decodeName, Yaml.Node.text?, Yaml.wrongType_ne_ok]

theorem text?_of_decodeKind {path : Path} {node : Yaml.Node} {kind : NodeKind}
    (h : decodeKind path node = .ok kind) : node.text? = some kind.word := by
  obtain ⟨word, hword, h⟩ := bind_eq_ok_iff.mp h
  rw [decodeName_eq_ok_iff.mp hword]
  cases hfound : NodeKind.all.find? (·.word = word) with
  | none => simp [hfound, throw_ne_ok] at h
  | some found =>
    obtain rfl : found = kind := by simpa [hfound, pure, Except.pure] using h
    have hfound : found.word = word := by simpa using List.find?_some hfound
    rw [hfound]

theorem of_decodeField {kind : NodeKind} {path : Path} {node : Yaml.Node} {field : Field}
    (h : decodeField kind path node = .ok field) :
    field ∈ kind.fields ∧ node.text? = some field.word := by
  obtain ⟨word, hword, h⟩ := bind_eq_ok_iff.mp h
  rw [decodeName_eq_ok_iff.mp hword]
  cases hfound : kind.fields.find? (·.word = word) with
  | none => simp [hfound, throw_ne_ok] at h
  | some found =>
    obtain rfl : found = field := by simpa [hfound, pure, Except.pure] using h
    have hword : found.word = word := by simpa using List.find?_some hfound
    exact ⟨List.mem_of_find?_eq_some hfound, by rw [hword]⟩

/-! ## Fields of a record -/

/-- The entries are read as the fields of the record but for those seen before: each names a new
one, a value that is held is read in its role, and no field is missing in the end. -/
inductive Record.Reads (r : Record) (path : Path) : List String → List (Entry Yaml.Node) → Prop
  | nil {seen : List String} (h : ∀ name ∈ r.required, name ∈ seen) : r.Reads path seen []
  | cons {seen : List String} {name : String} {e : Entry Yaml.Node} {rest : List (Entry Yaml.Node)}
    (hkey : e.key.text? = some name) (hname : name ∈ r.names) (hnew : name ∉ seen)
    (hheld : Yaml.isPresent path e.value = .ok true → ∀ inner, Role.Holds (.record r) name inner →
      inner.Accepts (path.enter e.label) e.value)
    (hrest : r.Reads path (name :: seen) rest) : r.Reads path seen (e :: rest)

namespace Record.Reads

variable {r : Record} {path : Path} {seen : List String} {entries : List (Entry Yaml.Node)}

theorem of_mem (h : r.Reads path seen entries) {e : Entry Yaml.Node} (he : e ∈ entries) :
    ∃ name ∈ r.names, e.key.text? = some name ∧ name ∉ seen ∧
      (Yaml.isPresent path e.value = .ok true → ∀ inner, Role.Holds (.record r) name inner →
        inner.Accepts (path.enter e.label) e.value) := by
  induction h with
  | nil => cases he
  | @cons seen name e' rest hkey hname hnew hheld _ ih =>
    rcases List.mem_cons.mp he with rfl | he
    · exact ⟨name, hname, hkey, hnew, hheld⟩
    · obtain ⟨other, hother, hkey', hnew', hheld'⟩ := ih he
      exact ⟨other, hother, hkey', fun hseen => hnew' (.tail _ hseen), hheld'⟩

theorem exists_required (h : r.Reads path seen entries) {name : String} (hname : name ∈ r.required) :
    name ∈ seen ∨ ∃ e ∈ entries, e.key.text? = some name := by
  induction h with
  | nil h => exact .inl (h name hname)
  | cons hkey _ _ _ _ ih =>
    rcases ih with hseen | ⟨e, he, hkey'⟩
    · rcases List.mem_cons.mp hseen with rfl | hseen
      · exact .inr ⟨_, .head _, hkey⟩
      · exact .inl hseen
    · exact .inr ⟨e, .tail _ he, hkey'⟩

theorem pairwise (h : r.Reads path seen entries) :
    entries.Pairwise fun e e' => e.key.text? ≠ e'.key.text? := by
  induction h with
  | nil => exact .nil
  | cons hkey _ _ _ hrest ih =>
    refine .cons ?_ ih
    intro e he hsame
    obtain ⟨name, -, hkey', hnew, -⟩ := hrest.of_mem he
    rw [hkey, hkey', Option.some_inj] at hsame
    exact hnew (hsame ▸ .head _)

end Record.Reads

/-! ## Reading a document -/

namespace Document

def Parts.Has (parts : Parts) (name : String) : Prop :=
  name = "root" ∧ parts.root.isSome ∨ name = "blackboard" ∧ parts.blackboard.isSome ∨
    name = "trees" ∧ parts.trees.isSome

theorem ok_of_unlessTwice {α : Type} {old : Option α} {fault : Failure}
    {decoded : Except Failure α} {a : α}
    (h : (if old.isSome = true then .error fault else decoded) = .ok a) :
    old.isSome = false ∧ decoded = .ok a := by
  split at h
  · cases h
  · next hnew => exact ⟨by simpa using hnew, h⟩

theorem decodeParts_cons {path : Path} {parts out : Parts} {e : Entry Yaml.Node}
    {rest : List (Entry Yaml.Node)} (h : decodeParts path parts (e :: rest) = .ok out) :
    ∃ name parts', e.key.text? = some name ∧ name ∈ fieldNames ∧ ¬ parts.Has name ∧
      (∀ other, parts'.Has other ↔ other = name ∨ parts.Has other) ∧
      (name = "trees" → Role.trees.Accepts (path.enter e.label) e.value) ∧
      decodeParts path parts' rest = .ok out := by
  rw [decodeParts] at h
  obtain ⟨name, hname, h⟩ := bind_eq_ok_iff.mp h
  have hkey : e.key.text? = some name := decodeName_eq_ok_iff.mp hname
  dsimp only at h
  split at h
  · next hroot =>
    obtain ⟨root, hvalue, hrest⟩ := bind_eq_ok_iff.mp h
    obtain ⟨hnew, -⟩ := ok_of_unlessTwice hvalue
    subst hroot
    refine ⟨_, _, hkey, by simp [fieldNames], by simp [Parts.Has, hnew], ?_, by simp, hrest⟩
    intro other
    simp [Parts.Has, hnew]
  · split at h
    · next hblackboard =>
      obtain ⟨blackboard, hvalue, hrest⟩ := bind_eq_ok_iff.mp h
      obtain ⟨hnew, -⟩ := ok_of_unlessTwice hvalue
      subst hblackboard
      refine ⟨_, _, hkey, by simp [fieldNames], by simp [Parts.Has, hnew], ?_, by simp, hrest⟩
      intro other
      simp [Parts.Has, hnew, or_left_comm]
    · split at h
      · next htrees =>
        obtain ⟨trees, hvalue, hrest⟩ := bind_eq_ok_iff.mp h
        obtain ⟨hnew, hdecoded⟩ := ok_of_unlessTwice hvalue
        subst htrees
        refine ⟨_, _, hkey, by simp [fieldNames], by simp [Parts.Has, hnew], ?_, ?_, hrest⟩
        · intro other
          simp [Parts.Has, hnew, or_comm, or_left_comm]
        · exact fun _ => ⟨trees, hdecoded⟩
      · cases h

theorem reads_of_decodeParts {path : Path} {parts out : Parts} {seen : List String}
    {entries : List (Entry Yaml.Node)} (hseen : ∀ name, name ∈ seen ↔ parts.Has name)
    (h : decodeParts path parts entries = .ok out) (hroot : out.root.isSome = true) :
    Record.document.Reads path seen entries := by
  induction entries generalizing parts seen with
  | nil =>
    cases h
    refine .nil ?_
    intro name hname
    rw [List.mem_singleton.mp hname, hseen]
    exact .inl ⟨rfl, hroot⟩
  | cons e rest ih =>
    obtain ⟨name, parts', hkey, hname, hnew, hparts', htrees, hrest⟩ := decodeParts_cons h
    refine .cons hkey hname (fun hmem => hnew ((hseen name).mp hmem)) ?_ (ih ?_ hrest)
    · rintro - inner ⟨⟩
      exact htrees rfl
    · intro other
      rw [hparts', List.mem_cons, hseen]

end Document

namespace Spec

theorem holds_body_cases {kind : NodeKind} {field : Field} {inner : Role}
    (h : Role.Holds (.record (.body kind)) field.word inner) :
    field = .child ∧ inner = .node ∨ field = .children ∧ inner = .children := by
  generalize hname : field.word = name at h
  cases h with
  | child => exact .inl ⟨Field.eq_of_word hname, rfl⟩
  | children => exact .inr ⟨Field.eq_of_word hname, rfl⟩

theorem decodeFields_cons {kind : NodeKind} {path : Path} {body : Body} {e : Entry Yaml.Node}
    {rest : List (Entry Yaml.Node)} {spec : Spec}
    (h : decodeFields kind path body (e :: rest) = .ok spec) :
    ∃ field body', decodeField kind path e.key = .ok field ∧ body.has field = false ∧
      (∀ other, body'.has other = true ↔ other = field ∨ body.has other = true) ∧
      (Yaml.isPresent path e.value = .ok true → ∀ inner,
        Role.Holds (.record (.body kind)) field.word inner →
          inner.Accepts (path.enter e.label) e.value) ∧
      decodeFields kind path body' rest = .ok spec := by
  rw [decodeFields] at h
  obtain ⟨field, hfield, h⟩ := bind_eq_ok_iff.mp h
  dsimp only at h
  split at h
  · cases h
  next hnew =>
  have hnew : body.has field = false := by simpa using hnew
  cases field
  case child =>
    obtain ⟨present, hpresent, h⟩ := bind_eq_ok_iff.mp h
    cases present with
    | false =>
      refine ⟨_, _, hfield, hnew, ?_, ?_, h⟩
      · intro other
        cases other <;> simp [Body.has]
      · intro hpresent'
        rw [hpresent] at hpresent'
        cases hpresent'
    | true =>
      obtain ⟨child, hvalue, h⟩ := bind_eq_ok_iff.mp h
      refine ⟨_, _, hfield, hnew, ?_, ?_, h⟩
      · intro other
        cases other <;> simp [Body.has]
      · intro _ inner hinner
        rcases holds_body_cases hinner with ⟨-, rfl⟩ | ⟨⟨⟩, -⟩
        cases hdecoded : decode (path.enter e.label) e.value with
        | error fault =>
          rw [hdecoded] at hvalue
          cases hvalue
        | ok spec => exact ⟨spec, hdecoded⟩
  case children =>
    obtain ⟨specs, hvalue, h⟩ := bind_eq_ok_iff.mp h
    refine ⟨_, _, hfield, hnew, ?_, ?_, h⟩
    · intro other
      cases other <;> simp [Body.has]
    · intro _ inner hinner
      rcases holds_body_cases hinner with ⟨⟨⟩, -⟩ | ⟨-, rfl⟩
      exact ⟨specs, hvalue⟩
  all_goals
    obtain ⟨value, -, h⟩ := bind_eq_ok_iff.mp h
    refine ⟨_, _, hfield, hnew, ?_, ?_, h⟩
    · intro other
      cases other <;> simp [Body.has]
    · intro _ inner hinner
      rcases holds_body_cases hinner with ⟨⟨⟩, -⟩ | ⟨⟨⟩, -⟩

theorem reads_of_decodeFields {kind : NodeKind} {path : Path} {body : Body} {seen : List String}
    {entries : List (Entry Yaml.Node)} {spec : Spec}
    (hseen : ∀ field : Field, field.word ∈ seen ↔ body.has field = true)
    (h : decodeFields kind path body entries = .ok spec) :
    (Record.body kind).Reads path seen entries := by
  induction entries generalizing body seen with
  | nil =>
    refine .nil ?_
    intro name hname
    obtain ⟨field, hfield, rfl⟩ := List.mem_map.mp hname
    obtain ⟨hfield, hrequired⟩ := List.mem_filter.mp hfield
    rw [hseen]
    have hmissing : body.missing? kind = none := by
      rw [decodeFields, closeBody] at h
      split at h
      · cases h
      · assumption
    simpa [hrequired] using List.find?_eq_none.mp hmissing field hfield
  | cons e rest ih =>
    obtain ⟨field, body', hfield, hnew, hbody', hheld, hrest⟩ := decodeFields_cons h
    obtain ⟨hknown, hkey⟩ := of_decodeField hfield
    refine .cons hkey (List.mem_map_of_mem hknown) ?_ hheld (ih ?_ hrest)
    · rw [hseen, hnew]
      exact Bool.false_ne_true
    · intro other
      rw [hbody', List.mem_cons, hseen]
      exact or_congr_left ⟨Field.eq_of_word, congrArg Field.word⟩

end Spec

namespace Role

variable {path : Path} {tag : Option String}

theorem Accepts.reads {r : Record} {entries : List (Entry Yaml.Node)}
    (h : (record r).Accepts path (.mapping tag entries)) : r.Reads path [] entries := by
  cases r with
  | document =>
    obtain ⟨d, hd⟩ := h
    obtain ⟨_, ⟨⟩, hd⟩ := bind_eq_ok_iff.mp hd
    obtain ⟨parts, hparts, hroot⟩ := bind_eq_ok_iff.mp hd
    refine Document.reads_of_decodeParts ?_ hparts ?_
    · simp [Document.Parts.Has]
    · cases hname : parts.root with
      | none => simp [hname, throw_ne_ok] at hroot
      | some root => rfl
  | body kind =>
    obtain ⟨spec, hspec⟩ := h
    rw [Spec.decodeBody] at hspec
    refine Spec.reads_of_decodeFields ?_ hspec
    intro field
    cases field <;> simp [Body.has]

theorem accepts_of_trees {entries : List (Entry Yaml.Node)}
    (h : trees.Accepts path (.mapping tag entries)) {e : Entry Yaml.Node} (he : e ∈ entries) :
    node.Accepts (path.enter e.label) e.value := by
  obtain ⟨table, h⟩ := h
  change entries.foldlM _ ∅ = _ at h
  generalize (∅ : Table Spec) = start at h
  induction entries generalizing start with
  | nil => cases he
  | cons e' rest ih =>
    rw [List.foldlM_cons] at h
    obtain ⟨next, hnext, h⟩ := bind_eq_ok_iff.mp h
    rcases List.mem_cons.mp he with rfl | he
    · obtain ⟨name, -, hnext⟩ := bind_eq_ok_iff.mp hnext
      obtain ⟨spec, hspec, -⟩ := bind_eq_ok_iff.mp hnext
      exact ⟨spec, hspec⟩
    · exact ih he _ h

/-- The only entry of a node names its kind, and has the body for its value. -/
theorem Accepts.kind {entries : List (Entry Yaml.Node)}
    (h : node.Accepts path (.mapping tag entries)) :
    ∃ kind e, entries = [e] ∧ e.key.text? = some (NodeKind.word kind) ∧
      (record (.body kind)).Accepts (path.enter e.label) e.value := by
  obtain ⟨spec, h⟩ := h
  rw [Spec.decode] at h
  split at h
  · cases h
  · cases entries with
    | nil => cases h
    | cons e rest =>
      rw [Spec.decodeKinds] at h
      obtain ⟨kind, hkind, h⟩ := bind_eq_ok_iff.mp h
      obtain ⟨spec', hspec', h⟩ := bind_eq_ok_iff.mp h
      refine ⟨kind, e, ?_, text?_of_decodeKind hkind, spec', hspec'⟩
      cases rest with
      | nil => rfl
      | cons e' rest =>
        dsimp only at h
        split at h <;> cases h

theorem accepts_of_children {items : List Yaml.Node}
    (h : children.Accepts path (.sequence tag items)) {item : Yaml.Node} (hitem : item ∈ items) :
    ∃ path, node.Accepts path item := by
  obtain ⟨specs, h⟩ := h
  rw [Spec.decodeChildren] at h
  generalize 0 = index at h
  induction items generalizing index specs with
  | nil => cases hitem
  | cons item' rest ih =>
    rw [Spec.decodeItems] at h
    obtain ⟨spec, hspec, h⟩ := bind_eq_ok_iff.mp h
    obtain ⟨specs', hrest, -⟩ := bind_eq_ok_iff.mp h
    rcases List.mem_cons.mp hitem with rfl | hitem
    · exact ⟨_, spec, hspec⟩
    · exact ih hitem _ _ hrest

/-- What is held by a mapping that can be read can be read itself. -/
theorem Accepts.held {role inner : Role} {entries : List (Entry Yaml.Node)}
    (h : role.Accepts path (.mapping tag entries)) {e : Entry Yaml.Node} {name : String}
    (he : e ∈ entries) (hkey : e.key.text? = some name) (hinner : role.Holds name inner)
    (hpresent : Yaml.isPresent path e.value = .ok true) :
    inner.Accepts (path.enter e.label) e.value := by
  cases role with
  | record r =>
    obtain ⟨name', -, hkey', -, hheld⟩ := h.reads.of_mem he
    obtain rfl : name = name' := Option.some_inj.mp (hkey.symm.trans hkey')
    exact hheld hpresent inner hinner
  | trees =>
    cases hinner
    exact accepts_of_trees h he
  | node =>
    cases hinner with
    | body kind =>
      obtain ⟨kind', e', rfl, hkey', hbody⟩ := h.kind
      obtain rfl := List.mem_singleton.mp he
      rw [hkey, Option.some_inj] at hkey'
      rwa [NodeKind.eq_of_word hkey']
  | children => cases hinner

end Role

/-- What is spoilt at one place cannot be read. -/
theorem Spoils.not_accepts {role : Role} {value value' : Yaml.Node} (h : Spoils role value value') :
    ∀ path path', role.Accepts path value → ¬ role.Accepts path' value' := by
  induction h with
  | @strange r e h tag before after =>
    intro path path' _ hafter
    obtain ⟨name, hname, hkey, -⟩ := hafter.reads.of_mem (List.mem_append_cons_self)
    exact h name hname hkey
  | @needed r name e h hkey tag before after =>
    intro path path' hbefore hafter
    rcases hafter.reads.exists_required h with hseen | ⟨e', he', hkey'⟩
    · cases hseen
    · have hnodup := (List.pairwise_middle fun hne => Ne.symm hne).mp hbefore.reads.pairwise
      exact List.rel_of_pairwise_cons hnodup he' (hkey.trans hkey'.symm)
  | kindless h tag entries =>
    intro path path' _ hafter
    obtain ⟨kind, e, rfl, hkey, -⟩ := hafter.kind
    exact h e (.head _) kind hkey
  | @doubled before after h tag e =>
    intro path path' _ hafter
    obtain ⟨kind, e', hentries, -⟩ := hafter.kind
    have hlength := congrArg List.length hentries
    have hpos : 0 < (before ++ after).length := List.length_pos_iff.mpr h
    simp at hlength hpos
    omega
  | entry he he' hkey hkey' hinner h tag tag' ih =>
    intro path path' hbefore hafter
    obtain ⟨hpresent, hpresent'⟩ := h.isPresent path path'
    exact ih _ _ (hbefore.held he hkey hinner hpresent) (hafter.held he' hkey' hinner hpresent')
  | item hitem hitem' h tag tag' ih =>
    intro path path' hbefore hafter
    obtain ⟨_, hvalue⟩ := Role.accepts_of_children hbefore hitem
    obtain ⟨_, hvalue'⟩ := Role.accepts_of_children hafter hitem'
    exact ih _ _ hvalue hvalue'

namespace Document

theorem parse_of_decode_error {text : String} {node : Yaml.Node} {failure : Failure}
    (hnode : (Yaml.read text).node = node) (h : decode [] node = .error failure) :
    parse text = .error (.document failure) := by
  subst hnode
  rw [parse, ofYaml, h]
  rfl

/-- A document that can be read, spoilt at any one place, is refused for what its text says. -/
theorem spoiled_refused {node node' : Yaml.Node} (hread : ∃ d, decode [] node = .ok d)
    (h : Spoils (.record .document) node node') :
    ∃ failure, decode [] node' = .error failure ∧
      ∀ text, (Yaml.read text).node = node' → parse text = .error (.document failure) := by
  have hrefused := h.not_accepts [] [] hread
  cases hdecode : decode [] node' with
  | ok d => exact absurd ⟨d, hdecode⟩ hrefused
  | error failure => exact ⟨failure, rfl, fun _ hnode => parse_of_decode_error hnode hdecode⟩

def watchNode (body : List (String × Yaml.Node)) : Yaml.Node :=
  .record [("root", .ofString "watch"), ("trees", .record [("watch", .record [("selector", .record
    [("children", .list [.record [("inverter", .record [("child", .record
      [("condition", .record body)])])]])])])])]

theorem spoiled_refused_watch :
    let node := watchNode [("binding", .ofString "seen")]
    let node' := watchNode [("binding", .ofString "seen"), ("bindng", .ofString "heard")]
    (∃ d, decode [] node = .ok d) ∧ Spoils (.record .document) node node' ∧
      ∃ failure, decode [] node' = .error failure := by
  intro node node'
  have hok : (decode [] node).isOk = true := by decide +kernel
  have hread : ∃ d, decode [] node = .ok d := by
    cases hdecode : decode [] node with
    | ok d => exact ⟨d, rfl⟩
    | error failure =>
      rw [hdecode] at hok
      cases hok
  have hspoils : Spoils (.record .document) node node' := by
    refine .entry (.tail _ (.head _)) (.tail _ (.head _)) rfl rfl .trees ?_ none none
    refine .entry (.head _) (.head _) rfl rfl (.definition "watch") ?_ none none
    refine .entry (.head _) (.head _) rfl rfl (.body .selector) ?_ none none
    refine .entry (.head _) (.head _) rfl rfl (.children .selector) ?_ none none
    refine .item (.head _) (.head _) ?_ none none
    refine .entry (.head _) (.head _) rfl rfl (.body .inverter) ?_ none none
    refine .entry (.head _) (.head _) rfl rfl (.child .inverter) ?_ none none
    refine .entry (.head _) (.head _) rfl rfl (.body .condition) ?_ none none
    exact .strange (by decide) none [_] []
  obtain ⟨failure, hrefused, -⟩ := spoiled_refused hread hspoils
  exact ⟨hread, hspoils, failure, hrefused⟩

end Document

end BehaviorTree
