import UnixCommons.Lib.Machine

/-!
# 物の集まり

`CORBA/CORBACommons/ObjectPool.hpp` の `ObjectPool`、`ObjectHandler` と、選び方の写し。`get_object` は、`lock_` の下で接続を選ぶ歩み、接続の
`obj_lock` の下で調べる歩み、再び `lock_` を取る歩みに分かれる。時刻、乱数、参照を解くことの結果は、歩みの入力である。
-/

namespace UnixCommons.CORBA.ObjectPool

open Lib

variable {ω ε : Type}

/-! ## 設定 -/

inductive ChoosePolicyType
  | loop
  | rand
  | badSwitch
  | persistent
  | precise
  deriving DecidableEq, Repr

/-- `ObjectPool` の例外。`noGoodReference` は、どの接続も悪いことの説明を、`badObject` と `invalidReference` は、その接続の説明を持つ。 -/
inductive Error
  | noGoodReference (statuses : List String)
  | noFreeObject
  | badObject (status : String)
  | invalidReference (status : String)
  deriving DecidableEq, Repr

/-- `resolver` は、接続の番号と入力から、参照を解いた結果を返す。`error` は例外を、`none` は空の参照を表す。 -/
structure Settings (ω ε : Type) where
  timeout : Int
  objectOnce : Bool
  allBadNoWait : Bool
  reresolve : Bool
  policy : ChoosePolicyType
  resolver : Nat → ε → Except String (Option ω)

/-! ## 接続 -/

inductive GiveOnce
  | notGiven
  | first
  | others
  deriving DecidableEq, Repr

/-- `ConnData`。`epoch` と `proved` は、コードにない記録である。`epoch` は、よい物に戻した回数、`proved` は、よい物として放された参照を渡した
時の `epoch` の最大である。 -/
structure ConnData (ω : Type) where
  object : Option ω
  resolve : Bool
  isBad : Bool
  badMarkTime : Int
  badnessDescription : String
  madeGood : Bool
  useCount : Int
  useMax : Int
  giveOnce : GiveOnce
  epoch : Nat
  proved : Nat
  deriving DecidableEq, Repr

def ConnData.new (useMax : Int) : ConnData ω := ⟨none, false, false, 0, "", false, 0, useMax, .others, 0, 0⟩

def ConnData.busy (conn : ConnData ω) : Bool :=
  (conn.useMax != 0 && decide (conn.useMax ≤ conn.useCount)) || conn.giveOnce == .first

def ConnData.softSuitable (conn : ConnData ω) : Bool := !conn.isBad && !conn.busy

def ConnData.hardSuitable (conn : ConnData ω) : Bool := conn.softSuitable && !conn.madeGood

/-- `check_bad_refs_` の、一つの接続についての部分。 -/
def ConnData.checkBad (cfg : Settings ω ε) (force : Bool) (now : Int) (conn : ConnData ω) : ConnData ω :=
  if conn.isBad then
    if force || decide (conn.badMarkTime + cfg.timeout ≤ now) then
      { conn with
        resolve := conn.resolve || cfg.reresolve
        isBad := false
        madeGood := true
        giveOnce := if cfg.objectOnce then .notGiven else conn.giveOnce
        epoch := conn.epoch + 1 }
    else
      conn
  else
    { conn with madeGood := false }

def ConnData.select (conn : ConnData ω) : ConnData ω :=
  { conn with useCount := conn.useCount + 1, giveOnce := if conn.giveOnce = .notGiven then .first else conn.giveOnce }

/-- `release_object_` の、よい物として放す部分。`given` は、放す参照を渡した時の `epoch` である。 -/
def ConnData.releaseGood (given : Nat) (conn : ConnData ω) : ConnData ω :=
  { conn with useCount := conn.useCount - 1, giveOnce := .others, proved := max conn.proved given }

/-- `release_object_` の、悪い物として放す部分。 -/
def ConnData.releaseBad (now : Int) (dsc : String) (conn : ConnData ω) : ConnData ω :=
  { conn with
    useCount := conn.useCount - 1
    isBad := true
    badnessDescription := "released object as bad, with reason: " ++ dsc
    badMarkTime := now }

/-- `get_object` が、悪くない接続の物を得る部分。 -/
def ConnData.takeObject (cfg : Settings ω ε) (k : Nat) (input : ε) (conn : ConnData ω) : ConnData ω × Except String ω :=
  match conn.object, cfg.reresolve && conn.resolve with
  | some object, false => (conn, .ok object)
  | _, _ =>
      let conn := { conn with resolve := conn.resolve && !cfg.reresolve }
      match cfg.resolver k input with
      | .ok (some object) => ({ conn with object := some object }, .ok object)
      | .ok none => ({ conn with object := none }, .error "failed to resolve")
      | .error what =>
          ({ conn with object := none },
            .error (if what.isEmpty then "failed to resolve" else "failed to resolve: " ++ what))

/-! ## 接続の選び方 -/

def checkBadRefs (cfg : Settings ω ε) (force : Bool) (now : Int) (objects : List (ConnData ω)) : List (ConnData ω) :=
  objects.map (·.checkBad cfg force now)

def checkAllAreBadOrBusy (objects : List (ConnData ω)) : Except Error Unit :=
  if objects.any (·.softSuitable) then .ok ()
  else if objects.all (·.isBad) then .error (.noGoodReference (objects.map (·.badnessDescription)))
  else .error .noFreeObject

/-- `get_object` が、選ぶ前に接続を見直す部分。 -/
def review (cfg : Settings ω ε) (now : Int) (objects : List (ConnData ω)) : List (ConnData ω) × Except Error Unit :=
  if cfg.allBadNoWait then
    match checkAllAreBadOrBusy objects with
    | .ok () => (checkBadRefs cfg false now objects, .ok ())
    | .error (.noGoodReference _) =>
        (checkBadRefs cfg true now objects, checkAllAreBadOrBusy (checkBadRefs cfg true now objects))
    | .error e => (objects, .error e)
  else
    (checkBadRefs cfg false now objects, checkAllAreBadOrBusy (checkBadRefs cfg false now objects))

def suitableAt (suitable : ConnData ω → Bool) (objects : List (ConnData ω)) (k : Nat) : Bool := objects[k]?.any suitable

/-- `cycle_next`。一周しても見つからなければ、終わらない。 -/
def cycleNext (objects : List (ConnData ω)) (k : Nat) : Option Nat :=
  ((List.range objects.length).map fun d => (k + 1 + d) % objects.length).find? (suitableAt (·.softSuitable) objects)

def checkAndCycleNext (objects : List (ConnData ω)) (k : Nat) : Option Nat :=
  if suitableAt (·.softSuitable) objects k then some k else cycleNext objects k

/-- `LoopPolicy::get_valid_object`。選んだ接続と、次の `last_object_` を返す。 -/
def loopObject (objects : List (ConnData ω)) (last : Nat) : Option (Nat × Nat) :=
  (cycleNext objects last).map fun k => (k, k)

def getValidObject (policy : ChoosePolicyType) (objects : List (ConnData ω)) (last key rand : Nat) :
    Except Error (Option (Nat × Nat)) :=
  match policy with
  | .loop => .ok (loopObject objects last)
  | .rand => .ok ((checkAndCycleNext objects (rand % objects.length)).map fun k => (k, last))
  | .badSwitch => .ok (if suitableAt (·.hardSuitable) objects last then some (last, last) else loopObject objects last)
  | .persistent => .ok ((checkAndCycleNext objects (key % objects.length)).map fun k => (k, last))
  | .precise =>
      match objects[key]? with
      | some conn => if conn.isBad then .error (.badObject conn.badnessDescription) else .ok (some (key, last))
      | none => .ok (loopObject objects last)

/-! ## 状態 -/

/-- `get_object` の呼び出しと、その返した参照の進み方。`failed`、`undone`、`refused` の間は、`obj_lock` を持つ。`selected` は選ばれた時の
`epoch` を、`handling` は渡した時の `epoch` を、記録として持つ。 -/
inductive Point (ω : Type)
  | selected (k epoch : Nat)
  | failed (k : Nat) (dsc : String)
  | undone (k : Nat)
  | refused (k : Nat)
  /-- `refused` の後の `InvalidReference`。 -/
  | rejected (k : Nat) (status : String)
  | handling (k : Nat) (object : ω) (epoch : Nat)
  | released
  | threw (e : Error)
  deriving DecidableEq, Repr

def Point.holds (k : Nat) : Point ω → Bool
  | .selected k' _ | .failed k' _ | .handling k' _ _ => k' == k
  | _ => false

def Point.locks (k : Nat) : Point ω → Bool
  | .failed k' _ | .undone k' | .refused k' => k' == k
  | _ => false

def Point.live (k : Nat) : Point ω → Bool
  | .handling k' _ _ => k' == k
  | _ => false

def Point.done : Point ω → Bool
  | .rejected .. | .released | .threw _ => true
  | _ => false

/-- `aborted` は、`get_conndata_` の `assert` が成り立たずに、止まったことである。 -/
structure State (ω : Type) where
  objects : List (ConnData ω)
  lastObject : Nat
  calls : List (Point ω)
  aborted : Bool
  deriving DecidableEq, Repr

/-- `ObjectPool` の構成子。 -/
def State.init (counts : List Int) : State ω := ⟨counts.map .new, 0, [], false⟩

/-! ## 操作 -/

inductive Action (ε : Type)
  | get (key rand : Nat) (now : Int)
  | examine (i : Nat) (input : ε)
  | undo (i : Nat) (now : Int)
  | report (i : Nat)
  | release (i : Nat)
  | releaseBad (i : Nat) (now : Int) (dsc : String)
  deriving Repr

def State.at (s : State ω) (i : Nat) (p : Point ω) : State ω := { s with calls := s.calls.set i p }

def State.update (s : State ω) (k : Nat) (f : ConnData ω → ConnData ω) : State ω :=
  { s with objects := s.objects.modify k f }

variable [DecidableEq ω]

def getConndata (objects : List (ConnData ω)) (object : ω) : Option Nat := objects.findIdx? (·.object == some object)

/-- `ObjectHandler` の参照を放す `release_object_`。物のある接続がなければ、`assert` が成り立たない。 -/
def State.releaseObject (s : State ω) (i : Nat) (object : ω) (f : ConnData ω → ConnData ω) : State ω :=
  match getConndata s.objects object with
  | some k => (s.update k f).at i .released
  | none => { s with aborted := true }

def step (cfg : Settings ω ε) (s : State ω) (action : Action ε) : Option (State ω) :=
  if s.aborted then none
  else
    match action with
    | .get key rand now =>
        let r := review cfg now s.objects
        let s := { s with objects := r.1 }
        match r.2 with
        | .error e => some { s with calls := s.calls ++ [.threw e] }
        | .ok () =>
            match getValidObject cfg.policy s.objects s.lastObject key rand with
            | .error e => some { s with calls := s.calls ++ [.threw e] }
            | .ok none => none
            | .ok (some (k, last)) =>
                match s.objects[k]? with
                | some conn =>
                    some { s.update k (·.select) with lastObject := last, calls := s.calls ++ [.selected k conn.epoch] }
                | none => none
    | .examine i input =>
        match s.calls[i]? with
        | some (.selected k _) =>
            match s.objects[k]? with
            | some conn =>
                if s.calls.any (·.locks k) then none
                else if conn.isBad then some (s.at i (.refused k))
                else
                  let r := conn.takeObject cfg k input
                  let s := s.update k fun _ => r.1
                  match r.2 with
                  | .ok object => some (s.at i (.handling k object conn.epoch))
                  | .error dsc => some (s.at i (.failed k dsc))
            | none => none
        | _ => none
    | .undo i now =>
        match s.calls[i]? with
        | some (.failed k dsc) => some ((s.update k (·.releaseBad now dsc)).at i (.undone k))
        | _ => none
    | .report i =>
        match s.calls[i]? with
        | some (.refused k) => s.objects[k]?.map fun conn => s.at i (.rejected k conn.badnessDescription)
        | some (.undone k) => s.objects[k]?.map fun conn => s.at i (.threw (.invalidReference conn.badnessDescription))
        | _ => none
    | .release i =>
        match s.calls[i]? with
        | some (.handling _ object given) => some (s.releaseObject i object (·.releaseGood given))
        | _ => none
    | .releaseBad i now dsc =>
        match s.calls[i]? with
        | some (.handling _ object _) =>
            some (s.releaseObject i object (·.releaseBad now (if dsc.isEmpty then "reason unknown" else dsc)))
        | _ => none

/-! ## 数と試しの失われる歩み -/

def Settings.resolved (cfg : Settings ω ε) (k : Nat) (input : ε) : Option ω :=
  match cfg.resolver k input with
  | .ok object => object
  | .error _ => none

def Point.differs (k : Nat) (found : Option ω) : Point ω → Bool
  | .handling k' object _ => k' == k && some object != found
  | _ => false

/-- `useCount` が失われる歩み。調べた接続が悪いか、解き直した物が、使われている参照の物と異なる。 -/
def lost (cfg : Settings ω ε) (s : State ω) : Action ε → Bool
  | .examine i input =>
      match s.calls[i]? with
      | some (.selected k _) =>
          s.objects[k]?.any fun conn =>
            conn.isBad || (cfg.reresolve && conn.resolve && s.calls.any (Point.differs k (cfg.resolved k input)))
      | _ => false
  | _ => false

/-- `n` より後に選ばれた途中の呼び出しか、`n` より後に渡された参照である。 -/
def Point.probes (k n : Nat) : Point ω → Bool
  | .selected k' epoch | .handling k' _ epoch => k' == k && decide (n < epoch)
  | _ => false

def Point.since (k n : Nat) : Point ω → Bool
  | .handling k' _ epoch => k' == k && decide (n ≤ epoch)
  | _ => false

def ConnData.due (cfg : Settings ω ε) (now : Int) (objects : List (ConnData ω)) (conn : ConnData ω) : Bool :=
  conn.isBad && ((cfg.allBadNoWait && objects.all (·.isBad)) || decide (conn.badMarkTime + cfg.timeout ≤ now))

/-- 試しの間に、他の参照が混ざる歩み。試しの参照があるのに接続がまた戻されるか、戻される前に選ばれた呼び出しが参照を渡すか、戻される前に渡された
参照がよい物として放される。 -/
def overtaken (cfg : Settings ω ε) (s : State ω) : Action ε → Bool
  | .get _ _ now =>
      (List.range s.objects.length).any fun k =>
        s.objects[k]?.any fun conn => conn.due cfg now s.objects && s.calls.any (Point.probes k conn.proved)
  | .examine i input =>
      match s.calls[i]? with
      | some (.selected k epoch) =>
          s.objects[k]?.any fun conn =>
            !conn.isBad && decide (conn.proved < conn.epoch) && decide (epoch < conn.epoch) &&
              (conn.object.isSome && !(cfg.reresolve && conn.resolve) || (cfg.resolved k input).isSome)
      | _ => false
  | .release i =>
      match s.calls[i]? with
      | some (.handling k _ given) => s.objects[k]?.any fun conn =>
          decide (conn.proved < conn.epoch) && decide (given ≤ conn.proved)
      | _ => false
  | _ => false

/-! ## 選べる接続 -/

def ConnData.roomy (conn : ConnData ω) : Bool := conn.useMax == 0 || decide (conn.useCount < conn.useMax)

def ConnData.available (cfg : Settings ω ε) (now : Int) (objects : List (ConnData ω)) (conn : ConnData ω) : Bool :=
  conn.roomy && (!conn.isBad && conn.giveOnce != .first || conn.due cfg now objects)

/-- `ALL_BAD_NO_WAIT_` の見直しが、戻す時の来た接続を見ずに `NoFreeObject` を投げる状態。よい接続があるが、どれも使えない。 -/
def State.overlooks (cfg : Settings ω ε) (now : Int) (s : State ω) : Bool :=
  cfg.allBadNoWait && s.objects.all (!·.softSuitable) && s.objects.any (!·.isBad) &&
    s.objects.any fun conn => conn.isBad && decide (conn.badMarkTime + cfg.timeout ≤ now) && conn.roomy

end UnixCommons.CORBA.ObjectPool
