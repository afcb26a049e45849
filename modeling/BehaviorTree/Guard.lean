import BehaviorTree.Registry

/-!
# The guard

A scenario to try trees in: a guard walks between two waypoints while a player stands
somewhere. All that the guard knows is on the blackboard. Sensing writes what it
perceives of the player, and its health; actions write its position, its next
waypoint, its count of attacks and its intent.
-/

namespace BehaviorTree

namespace Guard

/-- The guard sees a player nearer than this. -/
def sightRadius : Float32 := 8

/-- The guard reaches a player that is not farther than this. -/
def attackRange : Float32 := 1.5

def lowHealth : Float32 := 30

/-- The health that a second within attack range takes. -/
def damageRate : Float32 := 20

def arrivalDistance : Float32 := 0.01

def fullHealth : Float32 := 100

def usualSpeed : Float32 := 2

def usualPlayer : Vec3 := ⟨10, 0, 0⟩

def position (b : Blackboard) : Vec3 := b.getD .vector "self_pos" Vec3.zero

def health (b : Blackboard) : Float32 := b.getD .float "health" fullHealth

def reach (b : Blackboard) (seconds : Float32) : Float32 :=
  b.getD .float "speed" usualSpeed * seconds

/-- Notes what the guard perceives of the player, who hurts it within attack range. -/
def sense (player : Vec3) (seconds : Float32) (b : Blackboard) : Blackboard :=
  let distance := (position b).distance player
  let near : Bool := distance ≤ attackRange
  let b := b.insert .vector "player_pos" player
  let b := b.insert .bool "player_visible" (distance < sightRadius)
  let b := b.insert .bool "in_attack_range" near
  if near then b.insert .float "health" (maxNumber (health b - damageRate * seconds) 0) else b

abbrev Behavior := Float32 → Blackboard → Status × Blackboard

def intend (intent : String) (b : Blackboard) : Blackboard := b.insert .string "intent" intent

def stand (b : Blackboard) (place : Vec3) : Blackboard := b.insert .vector "self_pos" place

def arrival (place target : Vec3) (near : Float32) : Status :=
  if place.distance target ≤ near then .success else .running

def chase : Behavior := fun seconds b =>
  match b.get? .vector "player_pos" with
  | none => (.failure, b)
  | some player =>
    let place := (position b).moveTowards player (reach b seconds)
    (arrival place player attackRange, stand (intend "chase" b) place)

def aim : Behavior := fun _ b => (.running, intend "aim" b)

def attack : Behavior := fun _ b =>
  (.success, intend "attack" (b.insert .int "attacks" (b.getD .int "attacks" 0 + 1)))

def waypoints : List Vec3 := [⟨3, 0, 0⟩, ⟨-3, 0, 0⟩]

theorem index_lt (number : Int32) :
    (number.toInt % waypoints.length).toNat < waypoints.length := by
  simp only [waypoints, List.length_cons, List.length_nil]
  omega

/-- Numbers go round the list, negative ones as well. -/
def waypoint (number : Int32) : Int32 × Vec3 :=
  let index := number.toInt % waypoints.length
  (.ofInt index, waypoints.get ⟨index.toNat, index_lt number⟩)

def patrol : Behavior := fun seconds b =>
  let (index, target) := waypoint (b.getD .int "waypoint" 0)
  let place := (position b).moveTowards target (reach b seconds)
  let b := stand (intend "patrol" b) place
  match arrival place target arrivalDistance with
  | .success => (.success, b.insert .int "waypoint" (index + 1))
  | s => (s, b)

def flee : Behavior := fun seconds b =>
  let away := (position b - b.getD .vector "player_pos" Vec3.zero).normalizeOrZero
  (.running, stand (intend "flee" b) (position b + away * reach b seconds))

def idle : Behavior := fun _ b => (.success, intend "idle" b)

def conditions : List (String × (Blackboard → Bool)) := [
  ("player_visible", fun b => b.getD .bool "player_visible" false),
  ("in_attack_range", fun b => b.getD .bool "in_attack_range" false),
  ("low_health", fun b => health b < lowHealth)]

def actions : List (String × Behavior) := [
  ("chase", chase), ("aim", aim), ("attack", attack), ("patrol", patrol), ("flee", flee),
  ("idle", idle)]

variable {ω : Type}

def Behavior.toAction (f : Behavior) : Action ω := fun seconds w =>
  let (s, blackboard) := f seconds w.blackboard
  (s, { w with blackboard })

def registry : Registry ω :=
  let bare : Registry ω := {}
  let tested := conditions.foldl
    (fun r (name, test) => r.withCondition name fun w => (test w.blackboard, w.host)) bare
  actions.foldl (fun r (name, f) => r.withAction name f.toAction) tested

end Guard

end BehaviorTree
