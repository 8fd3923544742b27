import Mathlib.Algebra.Group.Nat.Defs
import Mathlib.Data.List.Perm.Basic
import Mathlib.Data.List.TakeWhile

/-! A callback request of QTEE whose arguments cannot be parsed (si_core.c). -/
namespace Sm8850.SiCore.Callback
open List

/-- The objects that a handle may stand for: the static primordial object, an entry of `xa_si_objects`,
and a new object for the QTEE handle of an argument. -/
inductive Object where
  | primordial
  | callback (n : Nat)
  | user (i : Nat)
  deriving DecidableEq

/-- What the lookups in `xa_si_objects`, the allocations and the operations of the object give; the
restart codes of the dispatcher are `-EINTR`. -/
structure Env where
  load : UInt32 → Option Nat
  alloc : Nat → Bool
  opSupported : UInt32 → Bool
  dispatch : Int

inductive ObjectType where
  | null
  | cbObject
  | user
  deriving DecidableEq

/-- `QTEE_OBJ_NS_BIT`, which is also the handle of the primordial object. -/
def nsBit : UInt32 := 0x80000000

/-- `si_object_type`. -/
def siObjectType (id : UInt32) : ObjectType :=
  if id = 0 then .null else if id &&& nsBit ≠ 0 then .cbObject else .user

/-- `qtee_get_si_object`. -/
def qteeGetSiObject (env : Env) (id : UInt32) : Option Object :=
  if id = nsBit then some .primordial else (env.load id).map .callback

/-- `init_si_object` for argument `i`. -/
def initSiObject (env : Env) (i : Nat) (id : UInt32) : Int × Option Object :=
  match siObjectType id with
  | .null => (0, none)
  | .cbObject =>
    match qteeGetSiObject env id with
    | some o => (0, some o)
    | none => (-22, none)
  | .user => if env.alloc i then (0, some (.user i)) else (-12, none)

/-- `union qtee_smcinvoke_msg_arg`: an object is where the offset of a buffer is. -/
structure MsgArg where
  offset : UInt32
  size : UInt32

def MsgArg.o (a : MsgArg) : UInt32 := a.offset

structure Message where
  cxt : UInt32
  op : UInt32
  counts : UInt32
  args : Nat → MsgArg

def numBi (counts : UInt32) : Nat := counts.toNat % 16
def numBo (counts : UInt32) : Nat := counts.toNat / 2 ^ 4 % 16
def numOi (counts : UInt32) : Nat := counts.toNat / 2 ^ 8 % 16
def numOo (counts : UInt32) : Nat := counts.toNat / 2 ^ 12 % 16

inductive ArgType where
  | ib
  | ob
  | io
  | oo
  deriving DecidableEq

/-- The union in `struct si_arg`. The address of a buffer is where the pointer to an object is. -/
inductive Value where
  | buffer (offset size : UInt32)
  | object (o : Option Object)
  deriving DecidableEq

open Value

structure Arg where
  type : ArgType
  value : Value

/-- The input objects of the message, by their indices. -/
def inputObjects (msg : Message) : List Nat := range' (numBi msg.counts + numBo msg.counts) (numOi msg.counts)

def bufferArg (type : ArgType) (msg : Message) (i : Nat) : Arg := ⟨type, .buffer (msg.args i).offset (msg.args i).size⟩

/-- The arguments that `prepare_args` sets up, as far as the end mark. The output objects keep the
contents that the array had. -/
def prepareArgs (env : Env) (msg : Message) (u : Nat → Value) : List Arg :=
  (range (numBi msg.counts)).map (bufferArg .ib msg) ++
  (range' (numBi msg.counts) (numBo msg.counts)).map (bufferArg .ob msg) ++
  (inputObjects msg).map (fun i => ⟨.io, .object (initSiObject env i (msg.args i).o).2⟩) ++
  (range' (numBi msg.counts + numBo msg.counts + numOi msg.counts) (numOo msg.counts)).map (fun i => ⟨.oo, u i⟩)

/-- What `prepare_args` returns: the error of the last input object that has one. -/
def prepareArgsRet (env : Env) (msg : Message) : Int :=
  (inputObjects msg).foldl (fun ret i =>
    let err := (initSiObject env i (msg.args i).o).1
    if err ≠ 0 then err else ret) 0

/-- `args_for_each_type`: the values of the arguments of a type. -/
def argsOfType (type : ArgType) (args : List Arg) : List Value := (args.filter fun a => a.type = type).map Arg.value

/-- `put_si_object` drops a reference of whatever is not null or the primordial object. -/
def Value.dropped : Value → Bool
  | .object none => false
  | .object (some .primordial) => false
  | _ => true

/-- `si_object_invoke`: the error, and the values of arguments that a reference is dropped of. -/
def siObjectInvoke (env : Env) (msg : Message) (u : Nat → Value) : Int × List Value :=
  if siObjectType msg.cxt = .null ∨ siObjectType msg.cxt = .user then (-22, [])
  else
    match qteeGetSiObject env msg.cxt with
    | none => (-22, [])
    | some _ =>
      let method := msg.op &&& 0xFFFF
      if method = 0xFFFF ∨ method = 0xFFFE then (0, [])
      else if !env.opSupported msg.op then (-22, [])
      else if prepareArgsRet env msg ≠ 0 then
        (prepareArgsRet env msg, (argsOfType .ib (prepareArgs env msg u)).filter Value.dropped)
      else (env.dispatch, [])

/-- The message gets as far as its arguments, and they cannot be parsed. -/
def Rejected (env : Env) (msg : Message) : Prop :=
  siObjectType msg.cxt = .cbObject ∧ (qteeGetSiObject env msg.cxt).isSome ∧
    (msg.op &&& 0xFFFF ≠ 0xFFFF ∧ msg.op &&& 0xFFFF ≠ 0xFFFE) ∧ env.opSupported msg.op = true ∧ prepareArgsRet env msg ≠ 0

instance (env : Env) (msg : Message) : Decidable (Rejected env msg) := inferInstanceAs (Decidable (_ ∧ _))

/-- The references that were obtained for the input objects of the message. -/
def obtained (env : Env) (msg : Message) : List Value :=
  ((inputObjects msg).map fun i => Value.object (initSiObject env i (msg.args i).o).2).filter Value.dropped

section
variable {env : Env} {msg : Message} {u : Nat → Value}

theorem argsOfType_append (type : ArgType) (l₁ l₂ : List Arg) :
    argsOfType type (l₁ ++ l₂) = argsOfType type l₁ ++ argsOfType type l₂ := by
  simp [argsOfType]

/-- Arguments that are all of one type. -/
theorem argsOfType_map (type : ArgType) {t : ArgType} (f : Nat → Value) (l : List Nat) :
    argsOfType type (l.map fun i => ⟨t, f i⟩) = if t = type then l.map f else [] := by
  by_cases ht : t = type <;> simp [argsOfType, filter_map, Function.comp_def, ht]

/-- What the clean-up takes for objects are the input buffers. -/
theorem argsOfType_ib : argsOfType .ib (prepareArgs env msg u) =
    (range (numBi msg.counts)).map fun i => buffer (msg.args i).offset (msg.args i).size := by
  unfold prepareArgs bufferArg
  simp [argsOfType_append, argsOfType_map]

theorem invoke_rejected (h : Rejected env msg) : siObjectInvoke env msg u =
    (prepareArgsRet env msg, (argsOfType .ib (prepareArgs env msg u)).filter dropped) := by
  obtain ⟨htype, hobj, ⟨hrel, hret⟩, hop, herr⟩ := h
  obtain ⟨o, ho⟩ := Option.isSome_iff_exists.mp hobj
  simp [siObjectInvoke, htype, ho, hrel, hret, hop, herr]

theorem dropped_buffers (f g : Nat → UInt32) (l : List Nat) :
    (l.map fun i => buffer (f i) (g i)).filter dropped = l.map fun i => buffer (f i) (g i) := by
  simp [filter_eq_self, dropped]

/-- The references that are dropped are those that were obtained exactly when there is no input buffer
and none was obtained. -/
theorem rejected_releases_iff (h : Rejected env msg) :
    ((siObjectInvoke env msg u).2.Perm (obtained env msg)) ↔ numBi msg.counts = 0 ∧ obtained env msg = [] := by
  rw [invoke_rejected h, argsOfType_ib, dropped_buffers]
  constructor
  · intro hperm
    -- what is dropped is a buffer, what was obtained an object
    have hnone : obtained env msg = [] := by
      refine eq_nil_iff_forall_not_mem.mpr fun v hv => ?_
      obtain ⟨i, -, hbuf⟩ := mem_map.mp (hperm.mem_iff.mpr hv)
      obtain ⟨j, -, hobj⟩ := mem_map.mp (mem_filter.mp hv).1
      cases hbuf.trans hobj.symm
    rw [hnone, perm_nil, map_eq_nil_iff, range_eq_nil] at hperm
    exact ⟨hperm, hnone⟩
  · rintro ⟨hbi, hnone⟩
    simp [hbi, hnone]

end

/-- An environment without objects in the table. -/
def bare : Env := ⟨fun _ => none, fun _ => true, fun _ => true, 0⟩

/-- A method of the primordial object with the given counts and handles. -/
def message (counts : UInt32) (handle : Nat → UInt32) : Message := ⟨nsBit, 0, counts, fun i => ⟨handle i, 0⟩⟩

/-- One input object, of an unknown handle. -/
theorem rejected_releases_unknown : Rejected bare (message 0x100 fun _ => nsBit + 1) ∧
    (siObjectInvoke bare (message 0x100 fun _ => nsBit + 1) fun _ => .object none).2.Perm (obtained bare (message 0x100 fun _ => nsBit + 1)) := by
  have hrej : Rejected bare (message 0x100 fun _ => nsBit + 1) := by decide
  exact ⟨hrej, (rejected_releases_iff hrej).mpr ⟨by decide, by decide⟩⟩

/-- An input buffer, a QTEE object and an unknown handle. The buffer is taken for an object, and the
reference of the QTEE object stays. -/
theorem buffer_put_as_object : Rejected bare (message 0x201 fun i => if i = 2 then nsBit + 1 else 16) ∧
    (siObjectInvoke bare (message 0x201 fun i => if i = 2 then nsBit + 1 else 16) fun _ => .object none).2 = [.buffer 16 0] ∧
    obtained bare (message 0x201 fun i => if i = 2 then nsBit + 1 else 16) = [.object (some (.user 1))] := by
  decide

end Sm8850.SiCore.Callback
