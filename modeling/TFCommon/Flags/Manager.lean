import TFCommon.Lib.Run
import Mathlib.Logic.Function.Basic

/-! The feature flags of `FlagManager`. One field of a `Flag` holds the default of the module and then the current value; the
default it was constructed with is kept here beside it. A copy is constructed with the current value of its source, which
is its default then. -/
namespace TFCommon.Flags
open Function (update)

inductive FlagState where
  | experimental | alpha | beta | inProgress | preRetired | unknown
deriving DecidableEq, Repr

structure FlagContext where
  desc : String
  value : String
deriving DecidableEq, Repr

structure FlagConfig where
  name : String
  version : String
  enabled : Bool
  state : FlagState
  contextInfos : List FlagContext
deriving DecidableEq, Repr

structure Flag where
  name : String
  enabled : Bool
  contextInfos : List FlagContext
  default : Bool
deriving DecidableEq, Repr

abbrev FlagMap := String → Option FlagConfig

structure FlagManager where
  flagMap : FlagMap := fun _ => none
  -- the entries of the multimap `int_map_`, with the addresses of the flags
  intMap : List (String × Nat) := []
  flags : Nat → Flag := fun _ => ⟨"", false, [], false⟩

namespace FlagManager

def isFlagEnabled (flagMap : FlagMap) (name : String) (defaultState : Bool) (cVec : List FlagContext) : Bool :=
  match flagMap name with
  | some cfg =>
    let result := if cVec.isEmpty && !cfg.contextInfos.isEmpty then false else cfg.enabled
    cVec.foldl (fun result context => if context ∈ cfg.contextInfos then result else false) result
  | none => defaultState

def setEnabled (s : FlagManager) (name : String) (value : Flag → Bool) : FlagManager :=
  { s with
    flags := fun i => if (name, i) ∈ s.intMap then { s.flags i with enabled := value (s.flags i) } else s.flags i }

def set (s : FlagManager) (cfg : FlagConfig) : FlagManager :=
  if s.flagMap cfg.name = some cfg then s
  else
    let s := { s with flagMap := update s.flagMap cfg.name (some cfg) }
    s.setEnabled cfg.name fun f => isFlagEnabled s.flagMap cfg.name f.enabled f.contextInfos

def unset (s : FlagManager) (name : String) : FlagManager :=
  { s with flagMap := update s.flagMap name none }.setEnabled name fun _ => false

def register (s : FlagManager) (i : Nat) : FlagManager :=
  let f := s.flags i
  { s with
    flags :=
      if (s.flagMap f.name).isSome then
        update s.flags i { f with enabled := isFlagEnabled s.flagMap f.name f.enabled f.contextInfos }
      else s.flags
    intMap := s.intMap ++ [(f.name, i)] }

def unregister (s : FlagManager) (i : Nat) : FlagManager :=
  { s with intMap := s.intMap.erase ((s.flags i).name, i) }

def construct (s : FlagManager) (i : Nat) (name : String) (enabled : Bool) (contextInfos : List FlagContext) : FlagManager :=
  { s with flags := update s.flags i ⟨name, enabled, contextInfos, enabled⟩ }.register i

inductive Action where
  | flag (i : Nat) (name : String) (enabled : Bool) (contextInfos : List FlagContext)
  -- the constructor from another flag and a callback
  | copy (i j : Nat)
  | destroy (i : Nat)
  | set (cfg : FlagConfig)
  | unset (name : String)
deriving DecidableEq, Repr

/-- There is a flag at the address of a new one, or none at that of an old one. -/
inductive Fault where
  | disabled
deriving DecidableEq, Repr

def live (s : FlagManager) (i : Nat) : Bool := s.intMap.any fun entry => entry.2 = i

def step (s : FlagManager) : Action → Except Fault FlagManager
  | .flag i name enabled contextInfos => if s.live i then .error .disabled else .ok (s.construct i name enabled contextInfos)
  | .copy i j =>
    if s.live i || !s.live j then .error .disabled
    else .ok (s.construct i (s.flags j).name (s.flags j).enabled (s.flags j).contextInfos)
  | .destroy i => if s.live i then .ok (s.unregister i) else .error .disabled
  | .set cfg => .ok (s.set cfg)
  | .unset name => .ok (s.unset name)

def expected (s : FlagManager) (i : Nat) : Bool :=
  isFlagEnabled s.flagMap (s.flags i).name (s.flags i).default (s.flags i).contextInfos

def Follows (s : FlagManager) : Prop := ∀ entry ∈ s.intMap, (s.flags entry.2).enabled = s.expected entry.2

/-- `Unset` disables the flags of its name: it does no harm to those that are disabled by default. -/
def Harmless (s : FlagManager) : Action → Prop
  | .unset name => ∀ i, (name, i) ∈ s.intMap → (s.flags i).default = false
  | _ => True

structure Inv (s : FlagManager) : Prop where
  named : ∀ entry ∈ s.intMap, (s.flags entry.2).name = entry.1
  follows : s.Follows

variable {s : FlagManager} {flagMap : FlagMap} {i : Nat} {name : String} {cVec : List FlagContext}

theorem isFlagEnabled_some {cfg : FlagConfig} (configured : flagMap name = some cfg) (a b : Bool) :
    isFlagEnabled flagMap name a cVec = isFlagEnabled flagMap name b cVec := by
  simp only [isFlagEnabled, configured]

theorem isFlagEnabled_none (absent : flagMap name = none) (a : Bool) : isFlagEnabled flagMap name a cVec = a := by
  simp only [isFlagEnabled, absent]

theorem Inv.change (inv : Inv s) {cfg : Option FlagConfig} {value : Flag → Bool}
    (own : ∀ i, (name, i) ∈ s.intMap → value (s.flags i) =
      isFlagEnabled (update s.flagMap name cfg) name (s.flags i).default (s.flags i).contextInfos) :
    Inv ({ s with flagMap := update s.flagMap name cfg }.setEnabled name value) := by
  refine ⟨fun entry inside => ?_, fun entry inside => ?_⟩
  · have named := inv.named entry inside
    simp only [setEnabled]
    split
    · exact named
    · exact named
  · have named := inv.named entry inside
    by_cases same : entry.1 = name
    · have mine : (name, entry.2) ∈ s.intMap := same ▸ inside
      simp only [expected, setEnabled, if_pos mine, named, same]
      exact own entry.2 mine
    · have other : (name, entry.2) ∉ s.intMap := fun mine => same (named.symm.trans (inv.named _ mine))
      have follows := inv.follows entry inside
      simp only [expected, setEnabled, if_neg other, named, isFlagEnabled, Function.update_of_ne same] at follows ⊢
      exact follows

theorem Inv.set (inv : Inv s) (cfg : FlagConfig) : Inv (s.set cfg) := by
  unfold FlagManager.set
  split
  · exact inv
  · exact inv.change fun i _ => isFlagEnabled_some (Function.update_self ..) _ _

theorem register_eq (s : FlagManager) (i : Nat) :
    s.register i = { s with
      flags := update s.flags i { s.flags i with
        enabled := isFlagEnabled s.flagMap (s.flags i).name (s.flags i).enabled (s.flags i).contextInfos }
      intMap := s.intMap ++ [((s.flags i).name, i)] } := by
  unfold register
  dsimp only
  split
  · rfl
  · rename_i absent
    rw [isFlagEnabled_none (Option.not_isSome_iff_eq_none.mp absent), Function.update_eq_self]

theorem Inv.construct (inv : Inv s) (new : ¬ s.live i) (enabled : Bool) (contextInfos : List FlagContext) :
    Inv (s.construct i name enabled contextInfos) := by
  have others : ∀ entry ∈ s.intMap, entry.2 ≠ i := fun entry inside same => new (List.any_eq_true.mpr ⟨entry, inside, by simpa⟩)
  rw [FlagManager.construct, register_eq]
  refine ⟨List.forall_mem_append.mpr ⟨fun entry inside => ?_, by simp⟩,
    List.forall_mem_append.mpr ⟨fun entry inside => ?_, by simp [expected]⟩⟩
  · simpa [others entry inside] using inv.named entry inside
  · simpa [expected, others entry inside] using inv.follows entry inside

theorem step_hinges (inv : Inv s) (a : Action) : Hinges Inv Follows (fun _ => False) (s.step a) (s.Harmless a) := by
  cases a with
  | unset name =>
    refine ⟨fun disabled => inv.change fun i mine => ?_, fun follows i mine => ?_⟩
    · rw [isFlagEnabled_none (Function.update_self ..), disabled i mine]
    · have own := follows (name, i) mine
      simp only [unset, expected, setEnabled, if_pos mine, inv.named _ mine] at own
      rw [isFlagEnabled_none (Function.update_self ..)] at own
      exact own.symm
  | set cfg => exact .free (inv.set cfg)
  | flag i name enabled contextInfos =>
    refine .free ?_
    simp only [step]
    split
    · exact not_false
    · rename_i new
      exact inv.construct new enabled contextInfos
  | copy i j =>
    refine .free ?_
    simp only [step]
    split
    · exact not_false
    · rename_i free
      exact inv.construct (fun live => free (by simp [live])) _ _
  | destroy i =>
    refine .free ?_
    simp only [step]
    split
    · exact ⟨fun entry inside => inv.named entry (List.mem_of_mem_erase inside),
        fun entry inside => inv.follows entry (List.mem_of_mem_erase inside)⟩
    · exact not_false

/-- The flags follow the configuration throughout a run exactly if no `Unset` meets a flag that is enabled by default. -/
theorem flags_follow_iff (actions : List Action) :
    Safe step Follows (fun _ => False) {} actions ↔ Throughout step Harmless {} actions :=
  safe_iff (I := Inv) (fun _ inv => inv.follows) (fun _ a inv => (step_hinges inv a).keeps)
    (fun _ a inv => (step_hinges inv a).exposes) actions {} ⟨nofun, nofun⟩

/-- A flag that is enabled by default is disabled once its configuration is removed. -/
theorem unset_forgets_default :
    ∃ s, run step {} [.flag 0 "f" true [], .set ⟨"f", "5.1", true, .beta, []⟩, .unset "f"] = .ok s ∧ s.flagMap "f" = none ∧
      ("f", 0) ∈ s.intMap ∧ (s.flags 0).enabled = false ∧ s.expected 0 = true :=
  ⟨_, rfl, by decide, by decide, by decide, by decide⟩

end FlagManager

end TFCommon.Flags
