import NexusHft.Core.Types
import NexusHft.Foundations.LabelledRun

namespace NexusHft

open Foundations

/-!
# Pre-trade checks

The kill switch is one flag for all risk engines; limits belong to an engine
and can be replaced at any time.  A run is a sequence of calls with their
answers, and what is in force at a call is read from the calls before it: the
switch from the last trip or reset, the limits of an engine from its last
construction or update.

The notional is a product of words.  An order whose true product is a word is
never let through against the limits, whatever run it is checked in.  For any
other order there is a run in which it is: an engine with the widest limits
accepts it, and no limit is as large as its notional.
-/

/-- The limits of one engine with their defaults: the largest quantity and
notional of an order, and how many percent a price may be worse than the
reference. -/
structure RiskLimits where
  maxOrderQty : Quantity := 10000
  maxNotional : UInt64 := 1000000000
  maxPriceDeviationPct : UInt8 := 5
  deriving DecidableEq, Repr

/-- Why an order is rejected, or that it is not.  The last reason is never given.
-/
inductive RejectReason where
  | None
  | MaxOrderQtyExceeded
  | MaxNotionalExceeded
  | PriceCollarExceeded
  | KillSwitchActive
  | UnknownError
  deriving DecidableEq, Repr

namespace RiskLimits

/-- The price collar check, for a reference price that is not zero. -/
def violatesCollar (limits : RiskLimits) (price : Price) (side : Side)
    (referencePrice : Price) : Bool :=
  let maxDeviation := (referencePrice * limits.maxPriceDeviationPct.toUInt64) / 100
  match side with
  | .Buy => price > referencePrice + maxDeviation
  | .Sell => price < referencePrice - maxDeviation

def checkOrder (limits : RiskLimits) (globalKillSwitch : Bool) (price : Price) (qty : Quantity)
    (side : Side) (referencePrice : Price) : RejectReason :=
  if globalKillSwitch then .KillSwitchActive
  else if qty > limits.maxOrderQty then .MaxOrderQtyExceeded
  else if price * qty > limits.maxNotional then .MaxNotionalExceeded
  else if referencePrice > 0 ∧ limits.violatesCollar price side referencePrice then
    .PriceCollarExceeded
  else .None

section CheckOrder

variable {limits : RiskLimits} {price : Price} {qty : Quantity} {side : Side}
variable {referencePrice : Price}

/-- An order passes when it passes each of the checks. -/
theorem checkOrder_eq_none_iff {globalKillSwitch : Bool} :
    limits.checkOrder globalKillSwitch price qty side referencePrice = .None <->
      globalKillSwitch = false ∧ qty ≤ limits.maxOrderQty ∧ price * qty ≤ limits.maxNotional ∧
        ¬ (referencePrice > 0 ∧ limits.violatesCollar price side referencePrice) := by
  unfold checkOrder
  by_cases tripped : globalKillSwitch = true
  · simp [tripped]
  · by_cases size : qty > limits.maxOrderQty
    · simp [tripped, size]
    · by_cases notional : price * qty > limits.maxNotional
      · simp [tripped, size, notional]
      · rw [if_neg tripped, if_neg size, if_neg notional]
        have unset : globalKillSwitch = false := Bool.eq_false_iff.mpr tripped
        have within := UInt64.not_lt.mp size
        have affordable := UInt64.not_lt.mp notional
        split
        · rename_i rejected
          exact ⟨fun passed => (by cases passed), fun passes => absurd rejected passes.2.2.2⟩
        · rename_i accepted
          exact ⟨fun _ => ⟨unset, within, affordable, accepted⟩, fun _ => rfl⟩

/-- The product of words stands for the true one unless that leaves their range. -/
theorem notional_le_iff : price.toNat * qty.toNat ≤ limits.maxNotional.toNat <->
    price * qty ≤ limits.maxNotional ∧ price.toNat * qty.toNat < 2 ^ 64 := by
  have bound := limits.maxNotional.toNat_lt
  rw [UInt64.le_iff_toNat_le, UInt64.toNat_mul]
  constructor
  · intro le
    exact ⟨(Nat.mod_le _ _).trans le, Nat.lt_of_le_of_lt le bound⟩
  · rintro ⟨le, inRange⟩
    rwa [Nat.mod_eq_of_lt inRange] at le

end CheckOrder
end RiskLimits

/-! ## Runs of calls -/

/-- A call of the risk engines, with its answer where it has one.  There may be
any number of engines, and each call names one. -/
inductive RiskCall where
  | construct (engine : Nat) (limits : RiskLimits)
  | updateLimits (engine : Nat) (newLimits : RiskLimits)
  | tripKillSwitch
  | resetKillSwitch
  | isKillSwitchActive (answer : Bool)
  | checkOrder (engine : Nat) (price : Price) (qty : Quantity) (side : Side)
      (referencePrice : Price) (answer : RejectReason)
  deriving DecidableEq, Repr

/-- The static kill switch, which all engines share, and the limits of the engines
constructed so far. -/
structure RiskState where
  globalKillSwitch : Bool := false
  limits : Nat -> Option RiskLimits := fun _ => none

namespace RiskState

def setLimits (state : RiskState) (engine : Nat) (limits : RiskLimits) : RiskState :=
  { state with limits := fun other => if other = engine then some limits else state.limits other }

@[simp] theorem setLimits_self (state : RiskState) (engine : Nat) (limits : RiskLimits) :
    (state.setLimits engine limits).limits engine = some limits := if_pos rfl

theorem setLimits_of_ne (state : RiskState) {engine other : Nat} (limits : RiskLimits)
    (different : other ≠ engine) :
    (state.setLimits engine limits).limits other = state.limits other := if_neg different

/-- What a call does, and for a query that the answer is the one of the state. -/
def Executes (state : RiskState) (call : RiskCall) (next : RiskState) : Prop :=
  match call with
  | .construct engine limits => next = state.setLimits engine limits
  | .updateLimits engine newLimits =>
      (state.limits engine).isSome ∧ next = state.setLimits engine newLimits
  | .tripKillSwitch => next = { state with globalKillSwitch := true }
  | .resetKillSwitch => next = { state with globalKillSwitch := false }
  | .isKillSwitchActive answer => answer = state.globalKillSwitch ∧ next = state
  | .checkOrder engine price qty side referencePrice answer =>
      (Exists fun limits => state.limits engine = some limits ∧
        answer = limits.checkOrder state.globalKillSwitch price qty side referencePrice) ∧
      next = state

/-- Calls of any number of risk engines, one after another.  The answers are part
of the labels, so a property of all answers is one of runs. -/
def system : LabelledSystem RiskState RiskCall where
  starts state := state = {}
  step := Executes

end RiskState

namespace RiskCall

/-- The kill switch as a call leaves it, if the call sets it. -/
def switches : RiskCall -> Option Bool
  | tripKillSwitch => some true
  | resetKillSwitch => some false
  | _ => none

/-- The limits a call gives to an engine. -/
def configures (engine : Nat) : RiskCall -> Option RiskLimits
  | construct found limits => if engine = found then some limits else none
  | updateLimits found newLimits => if engine = found then some newLimits else none
  | _ => none

/-- The kill switch has been tripped since its last reset. -/
def Tripped (past : List RiskCall) : Prop := LastWritten switches past true

/-- The limits an engine has been given last. -/
def CurrentLimits (past : List RiskCall) (engine : Nat) (limits : RiskLimits) : Prop :=
  LastWritten (configures engine) past limits

end RiskCall

namespace RiskState

open RiskCall

theorem killSwitch_iff {past : List RiskCall} {state : RiskState} (run : system.Run past state) :
    state.globalKillSwitch = true <-> Tripped past := by
  refine run.invariant (fun past state => state.globalKillSwitch = true <-> Tripped past) ?_ ?_
  · rintro state rfl
    exact ⟨fun set => absurd set (by decide), fun tripped => absurd tripped not_lastWritten_nil⟩
  · intro past state call next _ agrees executes
    have silent (quiet : call.switches = none)
        (same : next.globalKillSwitch = state.globalKillSwitch) :
        next.globalKillSwitch = true <-> Tripped (past ++ [call]) := by
      rw [same, Tripped, lastWritten_of_silent quiet]
      exact agrees
    cases call with
    | construct engine limits => exact silent rfl (by rw [show next = _ from executes]; rfl)
    | updateLimits engine newLimits => exact silent rfl (by rw [executes.2]; rfl)
    | tripKillSwitch =>
        have trips : switches .tripKillSwitch = some true := rfl
        rw [Tripped, lastWritten_of_writes trips, show next = _ from executes]
    | resetKillSwitch =>
        have resets : switches .resetKillSwitch = some false := rfl
        rw [Tripped, lastWritten_of_writes resets, show next = _ from executes]
    | isKillSwitchActive answer => exact silent rfl (by rw [executes.2])
    | checkOrder engine price qty side referencePrice answer =>
        exact silent rfl (by rw [executes.2])

theorem limits_iff {past : List RiskCall} {state : RiskState} (run : system.Run past state)
    (engine : Nat) (limits : RiskLimits) :
    state.limits engine = some limits <-> CurrentLimits past engine limits := by
  refine run.invariant
    (fun past state => state.limits engine = some limits <-> CurrentLimits past engine limits) ?_ ?_
  · rintro state rfl
    exact ⟨fun set => absurd set (by simp), fun current => absurd current not_lastWritten_nil⟩
  · intro past state call next _ agrees executes
    have silent (quiet : call.configures engine = none)
        (same : next.limits engine = state.limits engine) :
        next.limits engine = some limits <-> CurrentLimits (past ++ [call]) engine limits := by
      rw [same, CurrentLimits, lastWritten_of_silent quiet]
      exact agrees
    have configured (found : Nat) (given : RiskLimits) (isNext : next = state.setLimits found given)
        (wrote : call.configures engine = if engine = found then some given else none) :
        next.limits engine = some limits <-> CurrentLimits (past ++ [call]) engine limits := by
      by_cases same : engine = found
      · rw [if_pos same] at wrote
        rw [CurrentLimits, lastWritten_of_writes wrote, isNext, same, setLimits_self]
        exact Option.some_inj
      · rw [if_neg same] at wrote
        exact silent wrote (by rw [isNext, setLimits_of_ne state given same])
    cases call with
    | construct found given => exact configured found given executes rfl
    | updateLimits found given => exact configured found given executes.2 rfl
    | tripKillSwitch => exact silent rfl (by rw [show next = _ from executes])
    | resetKillSwitch => exact silent rfl (by rw [show next = _ from executes])
    | isKillSwitchActive answer => exact silent rfl (by rw [executes.2])
    | checkOrder found price qty side referencePrice answer =>
        exact silent rfl (by rw [executes.2])

/-! ## Soundness of an accepting answer -/

/-- An order that is let through obeys what is in force, its notional taken as
the true product. -/
def SoundAnswer (past : List RiskCall) (engine : Nat) (price : Price) (qty : Quantity)
    (answer : RejectReason) : Prop :=
  answer = .None -> ¬ Tripped past ∧ Exists fun limits => CurrentLimits past engine limits ∧
    qty ≤ limits.maxOrderQty ∧ price.toNat * qty.toNat ≤ limits.maxNotional.toNat

/-- Every check of an order of this price and quantity is answered soundly, in every run,
by every engine, for either side and any reference price. -/
def SoundFor (price : Price) (qty : Quantity) : Prop :=
  forall calls past later state engine side referencePrice answer, system.Run calls state ->
    calls = past ++ .checkOrder engine price qty side referencePrice answer :: later ->
      SoundAnswer past engine price qty answer

/-- The kill switch or the size limit stops the order, or its notional is a word. -/
def Safe (past : List RiskCall) (engine : Nat) (price : Price) (qty : Quantity) : Prop :=
  Tripped past ∨
    (Exists fun limits => CurrentLimits past engine limits ∧ limits.maxOrderQty < qty) ∨
    price.toNat * qty.toNat < 2 ^ 64

/-- A check is answered from what the calls before it have put in force. -/
theorem checked_none_iff {calls past later : List RiskCall} {state : RiskState} {engine : Nat}
    {price : Price} {qty : Quantity} {side : Side} {referencePrice : Price}
    {answer : RejectReason} (run : system.Run calls state)
    (checked : calls = past ++ .checkOrder engine price qty side referencePrice answer :: later) :
    Exists fun limits => (forall other, CurrentLimits past engine other <-> other = limits) ∧
      (answer = .None <-> ¬ Tripped past ∧ qty ≤ limits.maxOrderQty ∧
        price * qty ≤ limits.maxNotional ∧
          ¬ (referencePrice > 0 ∧ limits.violatesCollar price side referencePrice)) := by
  rw [checked] at run
  rcases run.cut with ⟨before, next, earlier, ⟨limits, inForce, isAnswer⟩, -⟩
  have untripped : before.globalKillSwitch = false <-> ¬ Tripped past := by
    rw [← killSwitch_iff earlier, Bool.not_eq_true]
  refine ⟨limits, ?_, ?_⟩
  · intro other
    rw [← limits_iff earlier engine other, inForce]
    exact ⟨fun same => (Option.some.inj same).symm, fun same => congrArg some same.symm⟩
  · rw [isAnswer, RiskLimits.checkOrder_eq_none_iff, untripped]

/-- A check of a safe order is answered soundly. -/
theorem Safe.soundAnswer {calls past later : List RiskCall} {state : RiskState} {engine : Nat}
    {price : Price} {qty : Quantity} {side : Side} {referencePrice : Price}
    {answer : RejectReason} (safe : Safe past engine price qty) (run : system.Run calls state)
    (checked : calls = past ++ .checkOrder engine price qty side referencePrice answer :: later) :
    SoundAnswer past engine price qty answer := by
  rcases checked_none_iff run checked with ⟨limits, inForce, passes⟩
  intro passed
  rcases passes.mp passed with ⟨calm, size, notional, -⟩
  refine ⟨calm, limits, (inForce limits).mpr rfl, size, ?_⟩
  rcases safe with tripped | ⟨other, current, above⟩ | word
  · exact absurd tripped calm
  · rw [(inForce other).mp current] at above
    exact absurd above (UInt64.not_lt.mpr size)
  · exact RiskLimits.notional_le_iff.mpr ⟨notional, word⟩

/-- The widest limits. -/
def widestLimits : RiskLimits :=
  { maxOrderQty := UInt64.ofNat (2 ^ 64 - 1), maxNotional := UInt64.ofNat (2 ^ 64 - 1) }

/-- A new engine with them accepts every order that comes without a reference price. -/
theorem widest_accepts (price : Price) (qty : Quantity) :
    widestLimits.checkOrder false price qty .Buy 0 = .None := by
  have largest (word : UInt64) : word ≤ UInt64.ofNat (2 ^ 64 - 1) :=
    UInt64.le_iff_toNat_le.mpr (Nat.le_of_lt_succ word.toNat_lt)
  rw [RiskLimits.checkOrder_eq_none_iff]
  exact ⟨rfl, largest qty, largest (price * qty), fun collar => absurd collar.1 (by decide)⟩

/-- So an order that is always answered soundly has a word as its notional. -/
theorem SoundFor.notional_lt {price : Price} {qty : Quantity} (sound : SoundFor price qty) :
    price.toNat * qty.toNat < 2 ^ 64 := by
  have begins : system.Run [] {} := .start rfl
  have constructs : system.step {} (.construct 0 widestLimits) (setLimits {} 0 widestLimits) := rfl
  have checks : system.step (setLimits {} 0 widestLimits)
      (.checkOrder 0 price qty .Buy 0 .None) (setLimits {} 0 widestLimits) :=
    ⟨⟨widestLimits, rfl, (widest_accepts price qty).symm⟩, rfl⟩
  have run := (begins.step constructs).step checks
  rcases (sound _ _ [] _ _ _ _ _ run rfl rfl).2 with ⟨limits, -, -, within⟩
  exact Nat.lt_of_le_of_lt within limits.maxNotional.toNat_lt

/-- Exactly the orders whose true notional is a word are answered soundly in every run,
by every engine, whatever the limits.  At a single check an order is also answered
soundly while the kill switch is tripped, or where its quantity is above the limit in
force. -/
theorem checkOrder_sound_iff (price : Price) (qty : Quantity) :
    (SoundFor price qty <-> price.toNat * qty.toNat < 2 ^ 64) ∧
    forall calls past later state engine side referencePrice answer, system.Run calls state ->
      calls = past ++ .checkOrder engine price qty side referencePrice answer :: later ->
        Safe past engine price qty -> SoundAnswer past engine price qty answer := by
  constructor
  · refine ⟨SoundFor.notional_lt, ?_⟩
    intro word calls past later state engine side referencePrice answer run checked
    have safe : Safe past engine price qty := .inr (.inr word)
    exact safe.soundAnswer run checked
  · intro calls past later state engine side referencePrice answer run checked safe
    exact safe.soundAnswer run checked

/-- Ten thousand at a price whose notional leaves 8384 modulo `2 ^ 64`: an engine with
the default limits lets it through. -/
theorem wrapped_notional_passes : ¬ forall price qty, SoundFor price qty := by
  intro sound
  have begins : system.Run [] {} := .start rfl
  have constructs : system.step {} (.construct 0 {}) (setLimits {} 0 {}) := rfl
  have constructed := begins.step constructs
  have checks : system.step (setLimits {} 0 {})
      (.checkOrder 0 1844674407370956 10000 .Buy 0 .None) (setLimits {} 0 {}) :=
    ⟨⟨{}, rfl, by decide⟩, rfl⟩
  rcases (sound _ _ _ _ [] _ _ _ _ _ (constructed.step checks) rfl rfl).2
    with ⟨limits, current, -, within⟩
  have found := (limits_iff constructed 0 limits).mpr current
  rw [setLimits_self] at found
  rw [← Option.some.inj found] at within
  exact absurd within (by decide)

end RiskState
end NexusHft
