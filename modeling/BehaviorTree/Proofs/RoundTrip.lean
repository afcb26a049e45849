import BehaviorTree.Document.Read
import BehaviorTree.Proofs.Rendering

/-!
# Documents written and read again

The writer leaves no field out, so that no default is needed when a document is read back. A node
is read field by field; of its children this is known by induction on the definition. The floats
are assumed to survive, and the text to parse to the tree that was printed.
-/

namespace BehaviorTree

open Yaml (Path Failure Survives)

theorem decodeKind_reread (kind : NodeKind) (path : Path) :
    decodeKind path (Yaml.Node.ofString kind.word).reread = .ok kind := by
  cases kind <;> rfl

theorem decodeField_reread {kind : NodeKind} {field : Field} (h : field ∈ kind.fields)
    (path : Path) : decodeField kind path (Yaml.Node.ofString field.word).reread = .ok field := by
  cases kind <;> simp only [NodeKind.fields, List.mem_cons, List.not_mem_nil, or_false] at h <;>
    rcases h with rfl | rfl | rfl | rfl <;> rfl

theorem decodeLabel_reread (label : Option String) (outer path : Path) :
    decodeLabel outer path (Spec.labelToYaml label).reread = .ok label := by
  cases label with
  | none => rfl
  | some name =>
    simp only [decodeLabel, Spec.labelToYaml, Yaml.isPresent_ofString, Yaml.decodeString_reread,
      bind, Except.bind]
    rfl

namespace Spec

def take (field : Field) (path : Path) (body : Body) (value : Yaml.Node) : Except Failure Body :=
  let inner := path.enter (some field.word)
  match field with
  | .binding => do pure { body with binding := some (← Yaml.decodeString inner value) }
  | .name => do pure { body with name := some (← decodeLabel path inner value) }
  | .child => do
    let child ← if ← Yaml.isPresent path value then some <$> decode inner value else pure none
    pure { body with child := some child }
  | .limit => do pure { body with limit := some (← Yaml.decodeInt inner value) }
  | .duration => do pure { body with duration := some (← Yaml.decodeSingle inner value) }
  | .memory => do pure { body with memory := some (← Yaml.decodeBool inner value) }
  | .children => do pure { body with children := some (← decodeChildren inner value) }
  | .success => do pure { body with success := some (← decodeQuorum inner value) }
  | .failure => do pure { body with failure := some (← decodeQuorum inner value) }
  | .tree => do pure { body with tree := some (← Yaml.decodeString inner value) }
  | .blackboard => do pure { body with scope := some (← decodeScope inner value) }
  | .report => do pure { body with report := some (← decodeReport inner value) }

theorem decodeFields_rereadEntry {kind : NodeKind} {field : Field} (hfield : field ∈ kind.fields)
    {path : Path} {body : Body} (hnew : body.has field = false) (value : Yaml.Node)
    (rest : List (Yaml.Entry Yaml.Node)) :
    decodeFields kind path body (Yaml.Node.rereadEntry field.word value :: rest) =
      take field path body value.reread >>= fun body => decodeFields kind path body rest := by
  have hok : ∀ f : Field → Except Failure Spec, (Except.ok field >>= f) = f field := fun _ => rfl
  rw [Yaml.Node.rereadEntry, decodeFields, decodeField_reread hfield, hok]
  simp only [hnew, Bool.false_eq_true, if_false]
  cases field with
  | child =>
    simp only [take, bind_assoc, pure_bind]
    refine bind_congr fun present => ?_
    cases present <;> simp
  | _ => simp only [take, bind_assoc, pure_bind]

inductive Fills (path : Path) : Body → List (Field × Yaml.Node) → Body → Prop
  | nil (body : Body) : Fills path body [] body
  | cons {body body' body'' : Body} {field : Field} {value : Yaml.Node}
    {fields : List (Field × Yaml.Node)} (hnew : body.has field = false)
    (hvalue : take field path body value.reread = .ok body') (h : Fills path body' fields body'') :
    Fills path body ((field, value) :: fields) body''

theorem Fills.decodeFields_eq {kind : NodeKind} {path : Path} {body body' : Body}
    {fields : List (Field × Yaml.Node)} (h : Fills path body fields body')
    (hfields : ∀ f ∈ fields, f.1 ∈ kind.fields) :
    decodeFields kind path body (fields.map fun f => Yaml.Node.rereadEntry f.1.word f.2) =
      closeBody kind path body' := by
  induction h with
  | nil body => rw [List.map_nil, decodeFields]
  | cons hnew hvalue h ih =>
    rw [List.map_cons, decodeFields_rereadEntry (hfields _ (.head _)) hnew, hvalue]
    exact ih fun f hf => hfields f (.tail _ hf)

theorem decode_wrap {kind : NodeKind} {fields : List (Field × Yaml.Node)} {path : Path}
    {body : Body} (h : Fills (.key kind.word :: path) {} fields body)
    (hfields : fields.map (·.1) = kind.fields) :
    decode path (wrap kind fields).reread = closeBody kind (.key kind.word :: path) body := by
  have hlocal : Yaml.isLocalTag none = false := rfl
  have hmem : ∀ f ∈ fields, f.1 ∈ kind.fields := fun f hf => hfields ▸ List.mem_map_of_mem hf
  rw [← h.decodeFields_eq hmem, wrap, Yaml.Node.reread_record]
  simp only [List.map, decode, hlocal, Bool.false_eq_true, if_false, Yaml.Node.rereadEntry,
    decodeKinds, decodeKind_reread, Yaml.Node.reread_record, decodeBody, List.map_map,
    Path.enter, bind_pure]
  rfl

def duration? : Spec → Option Float32
  | decorator (.timer duration) _ _ => some duration
  | _ => none

section

variable (path : Path) (body : Body)

theorem take_binding (binding : String) :
    take .binding path body (Yaml.Node.ofString binding).reread =
      .ok { body with binding := some binding } := rfl

theorem take_tree (tree : String) :
    take .tree path body (Yaml.Node.ofString tree).reread = .ok { body with tree := some tree } :=
  rfl

theorem take_name (name : Option String) :
    take .name path body (labelToYaml name).reread = .ok { body with name := some name } := by
  rw [take, decodeLabel_reread]
  rfl

theorem take_limit (limit : Int32) :
    take .limit path body (Yaml.Node.ofInt limit).reread =
      .ok { body with limit := some limit } := by
  rw [take, Yaml.decodeInt_reread]
  rfl

theorem take_duration {duration : Float32} (h : Survives duration) :
    take .duration path body (Yaml.Node.ofSingle duration).reread =
      .ok { body with duration := some duration } := by
  rw [take, h.decodeSingle_reread]
  rfl

theorem take_memory (memory : Bool) :
    take .memory path body (Yaml.Node.ofBool memory).reread =
      .ok { body with memory := some memory } := by
  rw [take, Yaml.decodeBool_reread]
  rfl

theorem take_success (q : Quorum) :
    take .success path body (Yaml.Node.ofString q.word).reread =
      .ok { body with success := some q } := by
  cases q <;> rfl

theorem take_failure (q : Quorum) :
    take .failure path body (Yaml.Node.ofString q.word).reread =
      .ok { body with failure := some q } := by
  cases q <;> rfl

theorem take_blackboard (scope : Scope) :
    take .blackboard path body (Yaml.Node.ofString scope.word).reread =
      .ok { body with scope := some scope } := by
  cases scope <;> rfl

theorem take_report (report : Report) :
    take .report path body (Yaml.Node.ofString report.word).reread =
      .ok { body with report := some report } := by
  cases report <;> rfl

end

def DurationsSurvive (specs : List Spec) : Prop :=
  ∀ spec ∈ specs, ∀ duration, spec.duration? = some duration → Survives duration

theorem durationsSurvive_append {specs specs' : List Spec} :
    DurationsSurvive (specs ++ specs') ↔ DurationsSurvive specs ∧ DurationsSurvive specs' :=
  List.forall_mem_append

theorem isPresent_toYaml (spec : Spec) (path : Path) :
    Yaml.isPresent path spec.toYaml.reread = .ok true := by
  have hwrap : ∃ kind fields, spec.toYaml = wrap kind fields := by
    cases spec <;> exact ⟨_, _, toYaml.eq_def _⟩
  obtain ⟨kind, fields, hwrap⟩ := hwrap
  rw [hwrap, wrap, Yaml.Node.reread_record]
  rfl

mutual

theorem decode_toYaml : ∀ (spec : Spec) (path : Path), DurationsSurvive spec.preorder →
    decode path spec.toYaml.reread = .ok spec
  | leaf kind binding name, path, _ => by
    rw [toYaml]
    cases kind with
    | condition | action =>
      exact decode_wrap (.cons rfl (take_binding ..) (.cons rfl (take_name ..) (.nil _))) rfl
  | decorator kind name child, path, h => by
    rw [preorder] at h
    have hchild := fun path body => take_child child path body fun s hs => h s (.tail _ hs)
    rw [toYaml.eq_def]
    cases kind with
    | inverter | succeeder =>
      exact decode_wrap (.cons rfl (take_name ..) (.cons rfl (hchild ..) (.nil _))) rfl
    | repeater limit =>
      exact decode_wrap (.cons rfl (take_name ..) (.cons rfl (take_limit ..)
        (.cons rfl (hchild ..) (.nil _)))) rfl
    | timer duration =>
      have hduration : Survives duration := h _ (.head _) duration rfl
      exact decode_wrap (.cons rfl (take_name ..) (.cons rfl (take_duration _ _ hduration)
        (.cons rfl (hchild ..) (.nil _)))) rfl
  | composite order memory name children, path, h => by
    rw [preorder] at h
    have hchildren := fun path body => take_children children path body fun s hs => h s (.tail _ hs)
    rw [toYaml]
    cases order with
    | sequence | selector =>
      exact decode_wrap (.cons rfl (take_name ..) (.cons rfl (take_memory ..)
        (.cons rfl (hchildren ..) (.nil _)))) rfl
  | parallel quorums name children, path, h => by
    rw [preorder] at h
    have hchildren := fun path body => take_children children path body fun s hs => h s (.tail _ hs)
    rw [toYaml]
    exact decode_wrap (.cons rfl (take_name ..) (.cons rfl (take_success ..)
      (.cons rfl (take_failure ..) (.cons rfl (hchildren ..) (.nil _))))) rfl
  | subtree scope report tree name, path, _ => by
    rw [toYaml]
    exact decode_wrap (.cons rfl (take_name ..) (.cons rfl (take_tree ..)
      (.cons rfl (take_blackboard ..) (.cons rfl (take_report ..) (.nil _))))) rfl

theorem take_child : ∀ (child : Option Spec) (path : Path) (body : Body),
    DurationsSurvive (preorderChild child) →
    take .child path body (childToYaml child).reread = .ok { body with child := some child }
  | none, _, _, _ => rfl
  | some spec, path, body, h => by
    have hspec := decode_toYaml spec (path.enter (some Field.child.word)) h
    simp only [take, childToYaml, isPresent_toYaml, hspec]
    rfl

theorem take_children : ∀ (children : List Spec) (path : Path) (body : Body),
    DurationsSurvive (preorderAll children) →
    take .children path body (Yaml.Node.list (allToYaml children)).reread =
      .ok { body with children := some children }
  | children, path, body, h => by
    have hitems := decodeItems_allToYaml children (path.enter (some Field.children.word)) 0 h
    rw [take, Yaml.Node.reread_list, decodeChildren, hitems]
    rfl

theorem decodeItems_allToYaml : ∀ (specs : List Spec) (path : Path) (index : Nat),
    DurationsSurvive (preorderAll specs) →
    decodeItems path index ((allToYaml specs).map Yaml.Node.reread) = .ok specs
  | [], _, _, _ => rfl
  | spec :: specs, path, index, h => by
    obtain ⟨hspec, hspecs⟩ := durationsSurvive_append.mp h
    rw [allToYaml, List.map_cons, decodeItems, decode_toYaml spec _ hspec,
      decodeItems_allToYaml specs path (index + 1) hspecs]
    rfl

end

end Spec

namespace Document

/-- Every float of a document survives, be it on the blackboard or the duration of a timer. -/
structure SinglesSurvive (d : Document) : Prop where
  values : ∀ k key value, d.blackboard.get? k key = some value → Yaml.valueSurvives k value
  durations : Spec.DurationsSurvive d.specs

theorem decode_toYaml {d : Document} (listing : d.blackboard.Listing) (h : d.SinglesSurvive)
    (path : Path) : decode path (d.toYaml listing).reread = .ok d := by
  have htrees := Yaml.decodeTable_reread Spec.decode Spec.toYaml (path.enter (some "trees"))
    (.refl d.trees.toList) fun name spec hspec =>
      Spec.decode_toYaml spec _ fun s hs => h.durations s (by
        have hmem := Std.ExtTreeMap.mem_toList_iff_getElem?_eq_some.mpr hspec
        exact List.mem_flatMap.mpr ⟨_, hmem, hs⟩)
  have hblackboard :=
    Yaml.decodeBlackboard_reread listing h.values (path.enter (some "blackboard"))
  rw [decode, toYaml, Yaml.decodeEntries_reread]
  simp only [List.map, decodeParts, Yaml.Node.rereadEntry, Yaml.decodeName_reread, hblackboard,
    htrees, Yaml.decodeString_reread, bind, Except.bind]
  rfl

/-- Reading the text that is written for a document gives that document back, in whatever order the
entries of its blackboard are written, if its floats survive, its nodes are not nested too deeply,
and the text parses to what was printed. -/
theorem ofYaml_write {d : Document} (listing : d.blackboard.Listing)
    (hparses : Yaml.parsesBack (d.toYaml listing) = true)
    (hdepth : (d.toYaml listing).depth ≤ Yaml.Node.greatestDepth) (hsingles : d.SinglesSurvive) :
    ofYaml (d.writeListing listing) = .ok d := by
  have hread := Yaml.read_write hparses hdepth
  rw [ofYaml, writeListing, hread]
  simp only [decode_toYaml listing hsingles]
  rfl

/-- A name that looks like a null, a name and a child that are left out, no children, a negative
limit, and two entries of which the one with the greater key is written first. -/
theorem ofYaml_write_patrol :
    let d : Document := {
      root := "patrol"
      blackboard := { ints := .ofList [("ammo", 6), ("hp", -3)] compare }
      trees := .ofList [("patrol", .composite .selector true (some "~")
        [.decorator (.repeater (-1)) none none, .composite .sequence false none []])] compare
    }
    ∃ listing : d.blackboard.Listing,
      listing.members .int = [("hp", -3), ("ammo", 6)] ∧ d.writeListing listing ≠ d.write ∧
        ofYaml (d.writeListing listing) = .ok d := by
  intro d
  let listing : d.blackboard.Listing :=
    { members := fun k => (d.blackboard.entries k).toList.reverse
      perm := fun k => List.reverse_perm _ }
  have hparses : Yaml.parsesBack (d.toYaml listing) = true := by
    rw [Yaml.parsesBack, Yaml.tokens, Yaml.write, String.toList_ofList]
    decide +kernel
  have hdiffers : d.writeListing listing ≠ d.write := by
    intro h
    have hchars := congrArg String.toList h
    rw [write, writeListing, writeListing, Yaml.write, Yaml.write, String.toList_ofList,
      String.toList_ofList] at hchars
    exact absurd hchars (by decide +kernel)
  have hsingles : d.SinglesSurvive := by
    constructor
    · intro k key value hvalue
      cases k with
      | float | vector => simp [d, Blackboard.get?, Blackboard.entries] at hvalue
      | int | bool | string => trivial
    · have hnone : d.specs.all (·.duration?.isNone) = true := by decide +kernel
      intro spec hspec duration hduration
      have := List.all_eq_true.mp hnone spec hspec
      rw [hduration] at this
      cases this
  refine ⟨listing, by decide +kernel, hdiffers, ?_⟩
  exact ofYaml_write listing hparses (by decide +kernel) hsingles

end Document

end BehaviorTree
