import BehaviorTree.Document.Write
import BehaviorTree.Proofs.Numeral

/-!
# Values printed and read again

A text is presented so that it is read as a text, whatever it looks like. Integers and booleans
are presented as they are; of a float this is assumed, number by number.
-/

namespace BehaviorTree.Yaml

namespace Node

theorem rereadAll_eq_map (ns : List Node) : rereadAll ns = ns.map reread := by
  induction ns with
  | nil => rfl
  | cons n ns ih => rw [rereadAll, ih, List.map_cons]

theorem rereadEntries_eq_map (es : List (Entry Node)) :
    rereadEntries es = es.map fun e => ⟨e.key.text?, e.key.reread, e.value.reread⟩ := by
  induction es with
  | nil => rfl
  | cons e es ih => rw [rereadEntries, ih, List.map_cons]

def rereadEntry (key : String) (value : Node) : Entry Node :=
  ⟨some key, (ofString key).reread, value.reread⟩

theorem reread_record (members : List (String × Node)) :
    (record members).reread =
      mapping none (members.map fun (key, value) => rereadEntry key value) := by
  rw [record, reread, rereadEntries_eq_map, List.map_map]
  rfl

theorem reread_list (items : List Node) :
    (list items).reread = sequence none (items.map reread) := by
  rw [list, reread, rereadAll_eq_map]

theorem reread_ofPlain {text : String} (h : admitsPlain text.toList = true) :
    (ofPlain text).reread = ofPlain text := by
  simp [ofPlain, reread, Style.presenting, h]

end Node

theorem wish_of_presenting {wish : Style} {cs : List Char} (h : wish.presenting cs = .plain) :
    wish = .plain := by
  cases wish with
  | plain => rfl
  | singleQuoted | literal =>
    simp only [Style.presenting] at h
    split at h <;> cases h
  | doubleQuoted | folded => cases h

theorem text_of_foundPlain {text word : String} (h : foundPlain text = .string word) :
    word = text := by
  have hinteger : ∀ n, foundInteger? n ≠ some (.string word) := by
    intro n
    simp only [foundInteger?]
    split
    · simp
    · split
      · simp
      · split <;> simp
  unfold foundPlain at h
  split at h
  · cases h
  · split at h
    · cases h
    · split at h
      · next found hfound =>
        obtain ⟨n, -, hn⟩ := Option.bind_eq_some_iff.mp hfound
        exact absurd (h ▸ hn) (hinteger n)
      · split at h
        · exact (Found.string.inj h).symm
        · split at h
          · cases h
          · exact (Found.string.inj h).symm

/-- Where a text is presented plainly it looks like nothing but a text. -/
theorem reread_ofString (text : String) :
    ∃ style, (Node.ofString text).reread = .scalar none style text ∧
      (style = .plain → foundPlain text = .string text) := by
  refine ⟨_, rfl, fun hplain => ?_⟩
  have hwish := wish_of_presenting hplain
  split at hwish
  · cases hwish
  · split at hwish
    · next word hword => exact text_of_foundPlain hword ▸ hword
    · cases hwish

section

variable (path : Path)

theorem decodeName_reread (kind name : String) :
    decodeName kind path (Node.ofString name).reread = .ok name := rfl

theorem decodeString_reread (text : String) :
    decodeString path (Node.ofString text).reread = .ok text := rfl

theorem decodeBool_reread (b : Bool) : decodeBool path (Node.ofBool b).reread = .ok b := by
  cases b <;> rfl

theorem isPresent_ofString (text : String) :
    isPresent path (Node.ofString text).reread = .ok true := by
  obtain ⟨style, hreread, hplain⟩ := reread_ofString text
  rw [hreread]
  cases style with
  | plain =>
    have hfound := hplain rfl
    have hword : ¬ (text.isEmpty = true ∨ isNullWord text = true) := by
      intro h
      rw [foundPlain, if_pos h] at hfound
      cases hfound
    simpa [isPresent] using hword
  | _ => rfl

theorem decodeInt_reread (n : Int32) : decodeInt path (Node.ofInt n).reread = .ok n := by
  have hwide : ¬ (n.toInt < Int64.minValue.toInt ∨ Int64.maxValue.toInt < n.toInt) := by
    have := n.le_toInt
    have := n.toInt_lt
    simp only [Int64.toInt_minValue, Int64.toInt_maxValue]
    omega
  have hnarrow : Int32.minValue.toInt ≤ n.toInt ∧ n.toInt ≤ Int32.maxValue.toInt :=
    ⟨n.minValue_le_toInt, n.toInt_le⟩
  rw [Node.ofInt, Node.reread_ofPlain (admitsPlain_toString n.toInt)]
  have hplain : mayBe intTag none .plain = true := rfl
  simp only [Node.ofPlain, decodeInt, hplain, if_true, integer?_toString, if_neg hwide,
    if_pos hnarrow, Int32.ofInt_toInt]

end

theorem wrongType_ne_ok {α : Type} (expected : String) (path : Path) (node : Node) (a : α) :
    wrongType expected path node ≠ .ok a := by
  unfold wrongType
  split
  · split <;> simp
  all_goals simp

/-- Whether a float that is printed on its own is read back as that float. -/
def Survives (x : Float32) : Prop := decodeSingle [] (Node.ofSingle x).reread = .ok x

theorem survives_iff {x : Float32} (h : parsesBack (Node.ofSingle x) = true) :
    Survives x ↔ decodeSingle [] (read (write (Node.ofSingle x))).node = .ok x := by
  rw [read_write h (Nat.zero_le _)]
  rfl

theorem Survives.decodeSingle_reread {x : Float32} (h : Survives x) (path : Path) :
    decodeSingle path (Node.ofSingle x).reread = .ok x := by
  simp only [Survives, Node.ofSingle, Node.ofPlain, Node.reread, decodeSingle] at h ⊢
  split at h
  · exact h
  · exact (wrongType_ne_ok _ _ _ _ h).elim

/-! ## Tables and records -/

theorem decodeEntries_reread (expected : String) (path : Path) (members : List (String × Node)) :
    decodeEntries expected path (Node.record members).reread =
      .ok (members.map fun (key, value) => Node.rereadEntry key value) := by
  rw [Node.reread_record]
  rfl

theorem insertMany_of_perm {α : Type} {t : Table α} {members : List (String × α)}
    (h : members.Perm t.toList) : (∅ : Table α).insertMany members = t := by
  refine Std.ExtTreeMap.ext_getElem? fun key => ?_
  cases hkey : t[key]? with
  | some a =>
    have hmem : (key, a) ∈ members :=
      h.mem_iff.mpr (Std.ExtTreeMap.mem_toList_iff_getElem?_eq_some.mpr hkey)
    have hdistinct : members.Pairwise fun m m' => ¬ compare m.1 m'.1 = .eq :=
      (h.pairwise_iff fun hne heq => hne (Std.OrientedCmp.eq_symm heq)).mpr
        Std.ExtTreeMap.distinct_keys_toList
    exact Std.ExtTreeMap.getElem?_insertMany_list_of_mem Std.ReflCmp.compare_self hdistinct hmem
  | none =>
    have hkeys : (members.map Prod.fst).contains key = false := by
      rw [(h.map Prod.fst).contains_eq]
      simpa [Std.ExtTreeMap.map_fst_toList_eq_keys] using hkey
    rw [Std.ExtTreeMap.getElem?_insertMany_list_of_contains_eq_false hkeys]
    rfl

/-- A table is read back from its entries in whatever order they are written. -/
theorem decodeTable_reread {α : Type} (decoder : Decoder α) (render : α → Node) (path : Path)
    {t : Table α} {members : List (String × α)} (hperm : members.Perm t.toList)
    (h : ∀ key a, t[key]? = some a → decoder (path.enter (some key)) (render a).reread = .ok a) :
    decodeTable decoder path (.reread (.record (members.map fun (key, a) => (key, render a)))) =
      .ok t := by
  -- for the induction, some of the entries on top of any others
  have hfold : ∀ (members : List (String × α)) (t' : Table α),
      (∀ m ∈ members, t[m.1]? = some m.2) →
      (members.map fun m => Node.rereadEntry m.1 (render m.2)).foldlM
        (fun (table : Table α) (e : Entry Node) => do
          let key ← decodeString path e.key
          return table.insert key (← decoder (path.enter e.label) e.value)) t' =
        (.ok (t'.insertMany members) : Except Failure (Table α)) := by
    intro members
    induction members with
    | nil => exact fun t' _ => rfl
    | cons m members ih =>
      intro t' hmembers
      have hvalue := h m.1 m.2 (hmembers m (.head members))
      rw [Std.ExtTreeMap.insertMany_cons, ← ih _ fun m hm => hmembers m (.tail _ hm)]
      simp only [List.map_cons, List.foldlM_cons, Node.rereadEntry, decodeString_reread, hvalue]
      rfl
  have hmembers : ∀ m ∈ members, t[m.1]? = some m.2 := fun m hm =>
    Std.ExtTreeMap.mem_toList_iff_getElem?_eq_some.mp (hperm.mem_iff.mp hm)
  rw [decodeTable, decodeEntries_reread, List.map_map]
  exact (hfold members ∅ hmembers).trans (by rw [insertMany_of_perm hperm])

theorem decodeFields_rereadEntry {V : Type} {fields : List (String × Decoder V)} {path : Path}
    {seen : List (String × V)} {name : String} {value : Node} {decoder : Decoder V} {v : V}
    (hdecoder : fields.lookup name = some decoder) (hseen : seen.lookup name = none)
    (hvalue : decoder (path.enter (some name)) value.reread = .ok v) (rest : List (Entry Node)) :
    decodeFields fields path seen (Node.rereadEntry name value :: rest) =
      decodeFields fields path (seen ++ [(name, v)]) rest := by
  simp only [Node.rereadEntry, decodeFields, decodeName_reread, bind, Except.bind, hdecoder, hseen,
    hvalue]
  rfl

/-- The values of a record whose names are known and differ from each other. -/
theorem decodeFields_reread {V : Type} {fields : List (String × Decoder V)} {path : Path}
    (members : List (String × Node × V)) (seen : List (String × V))
    (hnames : (seen.map (·.1) ++ members.map (·.1)).Nodup)
    (hfields : ∀ m ∈ members, ∃ decoder, fields.lookup m.1 = some decoder ∧
      decoder (path.enter (some m.1)) m.2.1.reread = .ok m.2.2) :
    decodeFields fields path seen (members.map fun m => Node.rereadEntry m.1 m.2.1) =
      .ok (seen ++ members.map fun m => (m.1, m.2.2)) := by
  induction members generalizing seen with
  | nil => simp [decodeFields]
  | cons m members ih =>
    obtain ⟨decoder, hdecoder, hvalue⟩ := hfields m (.head members)
    have hseen : seen.lookup m.1 = none := by
      rw [List.lookup_eq_none_iff]
      intro n hn
      have hne := (List.nodup_append.mp hnames).2.2 n.1 (List.mem_map_of_mem hn) m.1 (.head _)
      simpa using hne.symm
    rw [List.map_cons, decodeFields_rereadEntry hdecoder hseen hvalue, ih]
    · simp
    · simpa using hnames
    · exact fun n hn => hfields n (.tail _ hn)

theorem decodeVector_reread {v : Vec3} (hx : Survives v.x) (hy : Survives v.y)
    (hz : Survives v.z) (path : Path) : decodeVector path v.toYaml.reread = .ok v := by
  let members :=
    [("x", Node.ofSingle v.x, v.x), ("y", .ofSingle v.y, v.y), ("z", .ofSingle v.z, v.z)]
  have hmembers : ∀ m ∈ members, ∃ decoder,
      (["x", "y", "z"].map (·, decodeSingle)).lookup m.1 = some decoder ∧
        decoder (path.enter (some m.1)) m.2.1.reread = .ok m.2.2 := by
    simp only [members, List.forall_mem_cons]
    exact ⟨⟨_, rfl, hx.decodeSingle_reread _⟩, ⟨_, rfl, hy.decodeSingle_reread _⟩,
      ⟨_, rfl, hz.decodeSingle_reread _⟩, by simp⟩
  have hfields := decodeFields_reread members [] (by simp [members]) hmembers
  have hentries : decodeEntries "struct Vec3" path v.toYaml.reread =
      .ok (members.map fun m => Node.rereadEntry m.1 m.2.1) := decodeEntries_reread ..
  simp only [decodeVector, hentries, hfields, bind, Except.bind]
  rfl

def valueSurvives : (k : Kind) → k.Value → Prop
  | .float, x => Survives x
  | .vector, v => Survives v.x ∧ Survives v.y ∧ Survives v.z
  | .int, _ | .bool, _ | .string, _ => True

theorem decodeValue_reread (k : Kind) {value : k.Value} (h : valueSurvives k value) (path : Path) :
    decodeValue k path (k.valueToYaml value).reread = .ok value := by
  cases k with
  | float => exact h.decodeSingle_reread path
  | int => exact decodeInt_reread path value
  | bool => exact decodeBool_reread path value
  | vector => exact decodeVector_reread h.1 h.2.1 h.2.2 path
  | string => exact decodeString_reread path value

section

variable {b : Blackboard} (listing : b.Listing)

def sectionOf (k : Kind) : Node :=
  .record ((listing.members k).map fun (key, value) => (key, k.valueToYaml value))

def decodeSection (k : Kind) : Decoder (Blackboard → Blackboard) := fun path node => do
  let table ← decodeTable (decodeValue k) path node
  return fun b => b.setEntries k table

theorem decodeSection_reread (k : Kind) (path : Path)
    (h : ∀ key value, b.get? k key = some value → valueSurvives k value) :
    decodeSection k path (sectionOf listing k).reread =
      .ok fun c => c.setEntries k (b.entries k) := by
  have htable := decodeTable_reread (decodeValue k) k.valueToYaml path (listing.perm k)
    fun key value hvalue => decodeValue_reread k (h key value hvalue) _
  rw [decodeSection, sectionOf, htable]
  rfl

theorem decodeBlackboard_reread
    (h : ∀ k key value, b.get? k key = some value → valueSurvives k value) (path : Path) :
    decodeBlackboard path listing.toYaml.reread = .ok b := by
  let members := Kind.all.map fun k =>
    (k.sectionName, sectionOf listing k, fun c : Blackboard => c.setEntries k (b.entries k))
  have hmembers : ∀ m ∈ members, ∃ decoder,
      (Kind.all.map fun k => (k.sectionName, decodeSection k)).lookup m.1 = some decoder ∧
        decoder (path.enter (some m.1)) m.2.1.reread = .ok m.2.2 := by
    intro m hm
    obtain ⟨k, -, rfl⟩ := List.mem_map.mp hm
    exact ⟨decodeSection k, by cases k <;> rfl, decodeSection_reread listing k _ (h k)⟩
  have hnames : (members.map (·.1)).Nodup := by
    simpa [members, Function.comp_def] using (by decide : (Kind.all.map Kind.sectionName).Nodup)
  have hfields := decodeFields_reread members [] hnames hmembers
  have hentries : decodeEntries "struct Blackboard" path listing.toYaml.reread =
      .ok (members.map fun m => Node.rereadEntry m.1 m.2.1) := decodeEntries_reread ..
  have hopen : decodeBlackboard path listing.toYaml.reread = do
      let entries ← decodeEntries "struct Blackboard" path listing.toYaml.reread
      let values ← decodeFields (Kind.all.map fun k => (k.sectionName, decodeSection k)) path []
        entries
      return values.foldl (fun c v => v.2 c) {} := rfl
  rw [hopen, hentries]
  simp only [bind, Except.bind, hfields]
  cases b
  rfl

end

end BehaviorTree.Yaml
