import BehaviorTree.Blackboard
import Mathlib.Data.Finmap

/-!
# The blackboard as one finite map

The five sections of a blackboard are one finite map whose keys are the pairs of a kind and a
key. Every operation answers as it would on that map, and leaves what it would leave.
-/

namespace BehaviorTree

abbrev Slot := Kind × String

abbrev Entries := Finmap fun slot : Slot => slot.1.Value

namespace Entries

theorem nodupKeys_filter (m : Entries) (p : Slot → Prop) [DecidablePred p] :
    (m.entries.filter fun e => p e.1).NodupKeys := by
  rw [← Multiset.nodup_keys]
  have hle : (m.entries.filter fun e => p e.1).keys ≤ m.entries.keys :=
    Multiset.map_le_map (Multiset.filter_le _ _)
  exact Multiset.nodup_of_le hle (Multiset.nodup_keys.mpr m.nodupKeys)

def eraseKey (m : Entries) (key : String) : Entries :=
  ⟨m.entries.filter fun e => e.1.2 ≠ key, nodupKeys_filter m fun slot => slot.2 ≠ key⟩

theorem lookup_eraseKey (m : Entries) (key : String) (slot : Slot) :
    (m.eraseKey key).lookup slot = if slot.2 = key then none else m.lookup slot := by
  refine Option.ext fun value => ?_
  rw [Finmap.lookup_eq_some_iff, eraseKey, Multiset.mem_filter]
  split
  · next h => simp [h]
  · next h => simp [h, Finmap.lookup_eq_some_iff]

end Entries

namespace Blackboard

variable (b c : Blackboard)

/-! ## Lookups after each operation -/

theorem contains_eq_isSome (k : Kind) (key : String) : b.contains k key = (b.get? k key).isSome :=
  Std.ExtTreeMap.contains_eq_isSome_getElem?

/-- What treats every section in the same way. -/
theorem entries_foldl (f : (k : Kind) → Table k.Value → Table k.Value) (k : Kind) :
    (Kind.all.foldl (fun c k => c.setEntries k (f k (c.entries k))) b).entries k =
      f k (b.entries k) := by
  cases k <;> rfl

theorem get?_erase (k : Kind) (key key' : String) :
    (b.erase k key).get? k key' = if key = key' then none else b.get? k key' := by
  simp [get?, erase, Std.ExtTreeMap.getElem?_erase]

theorem get?_erase_of_ne {k l : Kind} (key key' : String) (h : l ≠ k) :
    (b.erase k key).get? l key' = b.get? l key' := by
  simp [get?, erase, entries_setEntries_of_ne _ _ h]

theorem get?_eraseKey (k : Kind) (key key' : String) :
    (b.eraseKey key).get? k key' = if key = key' then none else b.get? k key' := by
  have hentries : (b.eraseKey key).entries k = (b.entries k).erase key :=
    entries_foldl b (fun _ t => t.erase key) k
  simp [get?, hentries, Std.ExtTreeMap.getElem?_erase]

theorem get?_union (k : Kind) (key : String) :
    (b.union c).get? k key = (c.get? k key).or (b.get? k key) := by
  have hentries : (b.union c).entries k = b.entries k ∪ c.entries k :=
    entries_foldl b (fun k t => t ∪ c.entries k) k
  rw [get?, hentries, Std.ExtTreeMap.getElem?_union]
  rfl

theorem clear_eq : b.clear = empty :=
  ext_entries fun k => by rw [clear, entries_foldl b (fun _ _ => ∅), entries_empty]

theorem hasKey_iff (key : String) : b.hasKey key = true ↔ ∃ k, b.contains k key = true := by
  simp [hasKey, Kind.mem_all]

/-- The sections are emptied of the key whether or not an earlier one had it. -/
theorem removeKey_eq (key : String) : b.removeKey key = (b.hasKey key, b.eraseKey key) := by
  simp [removeKey, remove, hasKey, eraseKey, Kind.all, contains_eq_isSome, get?_erase_of_ne,
    Bool.or_assoc]

/-! ## The map of a blackboard -/

def toList : List (Sigma fun slot : Slot => slot.1.Value) :=
  Kind.all.flatMap fun k => (b.entries k).toList.map fun e => ⟨(k, e.1), e.2⟩

variable {b}

theorem mem_toList {k : Kind} {key : String} {value : k.Value} :
    ⟨(k, key), value⟩ ∈ b.toList ↔ b.get? k key = some value := by
  rw [get?, ← Std.ExtTreeMap.mem_toList_iff_getElem?_eq_some, toList, List.mem_flatMap]
  constructor
  · rintro ⟨l, -, he⟩
    obtain ⟨⟨key', value'⟩, hmem, heq⟩ := List.mem_map.mp he
    cases heq
    exact hmem
  · intro hmem
    exact ⟨k, Kind.mem_all k, List.mem_map.mpr ⟨_, hmem, rfl⟩⟩

variable (b)

theorem nodupKeys_toList : b.toList.NodupKeys := by
  rw [List.nodupKeys_iff_pairwise, toList, List.pairwise_flatMap]
  constructor
  · intro k _
    rw [List.pairwise_map]
    refine Std.ExtTreeMap.distinct_keys_toList.imp fun hne heq => hne ?_
    exact Std.compare_eq_iff_eq.mpr (congrArg Prod.snd heq)
  · have hnodup : Kind.all.Nodup := by decide
    refine hnodup.imp fun hne x hx y hy heq => hne ?_
    obtain ⟨_, -, rfl⟩ := List.mem_map.mp hx
    obtain ⟨_, -, rfl⟩ := List.mem_map.mp hy
    exact congrArg Prod.fst heq

def toEntries : Entries := ⟨b.toList, Multiset.coe_nodupKeys.mpr b.nodupKeys_toList⟩

@[simp] theorem lookup_toEntries (slot : Slot) :
    b.toEntries.lookup slot = b.get? slot.1 slot.2 := by
  refine Option.ext fun value => ?_
  rw [Finmap.lookup_eq_some_iff]
  exact mem_toList

theorem mem_toEntries (slot : Slot) : slot ∈ b.toEntries ↔ b.contains slot.1 slot.2 = true := by
  rw [← Finmap.lookup_isSome, lookup_toEntries, contains_eq_isSome]

theorem card_keys_toEntries : b.toEntries.keys.card = b.size := by
  have hlength : b.toEntries.keys.card = b.toList.length := List.length_map ..
  rw [hlength]
  simp [toList, size, Kind.all, Std.ExtTreeMap.length_toList, Nat.add_assoc]

theorem toEntries_empty : empty.toEntries = ∅ :=
  Finmap.ext_lookup fun slot => by simp [get?, Finmap.lookup_empty]

/-! ## One operation -/

inductive Operation
  | set (k : Kind) (key : String) (value : k.Value)
  | setString (key text : String)
  | get (k : Kind) (key : String) (fallback : k.Value)
  | find (k : Kind) (key : String)
  | findString (key : String)
  /-- Edits a value through a reference, if there is one. -/
  | modify (k : Kind) (key : String) (f : k.Value → k.Value)
  | contains (k : Kind) (key : String)
  | remove (k : Kind) (key : String)
  | hasKey (key : String)
  | removeKey (key : String)
  | clear
  | size
  | isEmpty
  /-- Takes over the entries of the other store. -/
  | extend
  /-- Becomes a copy of the other store. -/
  | copy

inductive Reply
  | done
  | value (k : Kind) (value : k.Value)
  | found (k : Kind) (value : Option k.Value)
  | flag (flag : Bool)
  | count (n : Nat)

namespace Operation

/-- The reply of a blackboard beside another one, and what becomes of it. -/
def onBlackboard (other b : Blackboard) : Operation → Reply × Blackboard
  | set k key value => (.done, b.insert k key value)
  | setString key text => (.done, b.insert .string key text)
  | get k key fallback => (.value k (b.getD k key fallback), b)
  | find k key => (.found k (b.get? k key), b)
  | findString key => (.found .string (b.get? .string key), b)
  | modify k key f => (b.modify k key f).map (.found k) id
  | contains k key => (.flag (b.contains k key), b)
  | remove k key => (b.remove k key).map (.found k) id
  | hasKey key => (.flag (b.hasKey key), b)
  | removeKey key => (b.removeKey key).map .flag id
  | clear => (.done, b.clear)
  | size => (.count b.size, b)
  | isEmpty => (.flag b.isEmpty, b)
  | extend => (.done, b.union other)
  | copy => (.done, other)

def onEntries (other m : Entries) : Operation → Reply × Entries
  | set k key value => (.done, m.insert (k, key) value)
  | setString key text => (.done, m.insert (.string, key) text)
  | get k key fallback => (.value k ((m.lookup (k, key)).getD fallback), m)
  | find k key => (.found k (m.lookup (k, key)), m)
  | findString key => (.found .string (m.lookup (.string, key)), m)
  | modify k key f =>
    match m.lookup (k, key) with
    | some value => (.found k (some value), m.insert (k, key) (f value))
    | none => (.found k none, m)
  | contains k key => (.flag (decide ((k, key) ∈ m)), m)
  | remove k key => (.found k (m.lookup (k, key)), m.erase (k, key))
  | hasKey key => (.flag (decide (∃ slot ∈ m.keys, slot.2 = key)), m)
  | removeKey key => (.flag (decide (∃ slot ∈ m.keys, slot.2 = key)), m.eraseKey key)
  | clear => (.done, ∅)
  | size => (.count m.keys.card, m)
  | isEmpty => (.flag (decide (m.keys = ∅)), m)
  | extend => (.done, other ∪ m)
  | copy => (.done, other)

end Operation

section

variable {b}

theorem toEntries_eq {m : Entries} (h : ∀ k key, m.lookup (k, key) = b.get? k key) :
    b.toEntries = m :=
  Finmap.ext_lookup fun slot => by rw [lookup_toEntries, h]

end

theorem toEntries_insert (k : Kind) (key : String) (value : k.Value) :
    (b.insert k key value).toEntries = b.toEntries.insert (k, key) value := by
  refine toEntries_eq fun l key' => ?_
  by_cases hslot : (l, key') = (k, key)
  · cases hslot
    rw [Finmap.lookup_insert, get?_insert, if_pos rfl]
  · rw [Finmap.lookup_insert_of_ne _ hslot, lookup_toEntries]
    by_cases hl : l = k
    · subst hl
      rw [get?_insert, if_neg fun hkey => hslot (by rw [hkey])]
    · rw [get?_insert_of_ne _ _ _ _ hl]

theorem toEntries_erase (k : Kind) (key : String) :
    (b.erase k key).toEntries = b.toEntries.erase (k, key) := by
  refine toEntries_eq fun l key' => ?_
  by_cases hslot : (l, key') = (k, key)
  · cases hslot
    rw [Finmap.lookup_erase, get?_erase, if_pos rfl]
  · rw [Finmap.lookup_erase_ne hslot, lookup_toEntries]
    by_cases hl : l = k
    · subst hl
      rw [get?_erase, if_neg fun hkey => hslot (by rw [hkey])]
    · rw [get?_erase_of_ne _ _ _ hl]

theorem toEntries_eraseKey (key : String) :
    (b.eraseKey key).toEntries = b.toEntries.eraseKey key := by
  refine toEntries_eq fun k key' => ?_
  rw [Entries.lookup_eraseKey, get?_eraseKey, lookup_toEntries]
  simp only [eq_comm]

/-- Where both have an entry, that of `c` comes first. -/
theorem toEntries_union : (b.union c).toEntries = c.toEntries ∪ b.toEntries := by
  refine toEntries_eq fun k key => ?_
  rw [get?_union]
  cases hc : c.get? k key with
  | some value =>
    have hmem : (k, key) ∈ c.toEntries := by simp [mem_toEntries, contains_eq_isSome, hc]
    rw [Finmap.lookup_union_left hmem, lookup_toEntries, hc, Option.some_or]
  | none =>
    have hmem : (k, key) ∉ c.toEntries := by simp [mem_toEntries, contains_eq_isSome, hc]
    rw [Finmap.lookup_union_right hmem, lookup_toEntries, Option.none_or]

theorem hasKey_eq (key : String) :
    b.hasKey key = decide (∃ slot ∈ b.toEntries.keys, slot.2 = key) := by
  rw [Bool.eq_iff_iff, hasKey_iff, decide_eq_true_iff]
  simp [Finmap.mem_keys, mem_toEntries]

theorem isEmpty_eq : b.isEmpty = decide (b.toEntries.keys = ∅) := by
  rw [isEmpty, ← card_keys_toEntries]
  simp only [Finset.card_eq_zero]

theorem onEntries_toEntries (o : Operation) :
    o.onEntries c.toEntries b.toEntries = (o.onBlackboard c b).map id toEntries := by
  cases o with
  | set k key value => simp [Operation.onEntries, Operation.onBlackboard, toEntries_insert]
  | setString key text => simp [Operation.onEntries, Operation.onBlackboard, toEntries_insert]
  | get | find | findString => simp [Operation.onEntries, Operation.onBlackboard, getD]
  | modify k key f =>
    simp only [Operation.onEntries, Operation.onBlackboard, modify, lookup_toEntries]
    cases hvalue : b.get? k key with
    | some value =>
      simp [replace, contains_eq_isSome, hvalue, toEntries_insert]
    | none => rfl
  | contains k key =>
    simp [Operation.onEntries, Operation.onBlackboard, mem_toEntries]
  | remove k key => simp [Operation.onEntries, Operation.onBlackboard, remove, toEntries_erase]
  | hasKey key => simp [Operation.onEntries, Operation.onBlackboard, hasKey_eq]
  | removeKey key =>
    simp [Operation.onEntries, Operation.onBlackboard, removeKey_eq, hasKey_eq,
      toEntries_eraseKey]
  | clear => simp [Operation.onEntries, Operation.onBlackboard, clear_eq, toEntries_empty]
  | size => simp [Operation.onEntries, Operation.onBlackboard, card_keys_toEntries]
  | isEmpty => simp [Operation.onEntries, Operation.onBlackboard, isEmpty_eq]
  | extend => simp [Operation.onEntries, Operation.onBlackboard, toEntries_union]
  | copy => rfl

/-! ## Runs over two stores -/

inductive Request
  | first (o : Operation)
  | second (o : Operation)
  | swap

section

variable {σ : Type} (perform : σ → σ → Operation → Reply × σ)

def serve (s : σ × σ) : Request → Reply × (σ × σ)
  | .first o => (perform s.2 s.1 o).map id (·, s.2)
  | .second o => (perform s.1 s.2 o).map id (s.1, ·)
  | .swap => (.done, s.swap)

def serveAll (s : σ × σ) : List Request → List Reply × (σ × σ)
  | [] => ([], s)
  | r :: rs =>
    let served := serve perform s r
    (serveAll served.2 rs).map (served.1 :: ·) id

end

theorem serve_toEntries (s : Blackboard × Blackboard) (r : Request) :
    serve Operation.onEntries (s.map toEntries toEntries) r =
      (serve Operation.onBlackboard s r).map id (Prod.map toEntries toEntries) := by
  cases r with
  | first o =>
    simp only [serve, Prod.map_fst, Prod.map_snd, onEntries_toEntries]
    rfl
  | second o =>
    simp only [serve, Prod.map_fst, Prod.map_snd, onEntries_toEntries]
    rfl
  | swap => rfl

theorem serveAll_map_toEntries (s : Blackboard × Blackboard) (rs : List Request) :
    serveAll Operation.onEntries (s.map toEntries toEntries) rs =
      (serveAll Operation.onBlackboard s rs).map id (Prod.map toEntries toEntries) := by
  induction rs generalizing s with
  | nil => rfl
  | cons r rs ih =>
    rw [serveAll, serveAll, serve_toEntries]
    simp only [Prod.map_snd, ih]
    rfl

/-- Two blackboards and the two maps that hold the same entries give the same replies to every
sequence of requests, and hold the same entries at its end. -/
theorem serveAll_toEntries (s : Blackboard × Blackboard) (rs : List Request) :
    let onMaps := serveAll Operation.onEntries (s.1.toEntries, s.2.toEntries) rs
    let served := serveAll Operation.onBlackboard s rs
    onMaps.1 = served.1 ∧ onMaps.2 = (served.2.1.toEntries, served.2.2.toEntries) ∧
      ∀ k key, onMaps.2.1.lookup (k, key) = served.2.1.get? k key ∧
        onMaps.2.2.lookup (k, key) = served.2.2.get? k key := by
  intro onMaps served
  have hmaps : onMaps = served.map id (Prod.map toEntries toEntries) :=
    serveAll_map_toEntries s rs
  rw [hmaps]
  exact ⟨rfl, rfl, fun k key => ⟨lookup_toEntries _ (k, key), lookup_toEntries _ (k, key)⟩⟩

end Blackboard

end BehaviorTree
