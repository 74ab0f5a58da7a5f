import LinuxServer.Protobuf.Exchange
import LinuxServer.Protobuf.Fragmentation

/-! The dispatcher behind the codec: which callback gets which message. -/
namespace LinuxServer.Protobuf.Dispatcher
open LinuxServer.Lib LinuxServer.Reactor

/-- What C++ and protobuf know of the type of a message. -/
structure Types (Msg T Descriptor : Type) where
  dynamicType : Msg → T
  getDescriptor : Msg → Descriptor
  /-- T::descriptor(). -/
  descriptor : T → Descriptor

/-- Generated classes: a message has the descriptor of its class, and no two classes share one. -/
structure Generated {Msg T Descriptor : Type} (ty : Types Msg T Descriptor) : Prop where
  getDescriptor_eq : ∀ m, ty.getDescriptor m = ty.descriptor (ty.dynamicType m)
  injective : Function.Injective ty.descriptor

/-- The callback of a user for a class. -/
structure CallBackT (T κ : Type) where
  type : T
  callBack : κ

structure ProtobufDispatcher (T Descriptor κ : Type) where
  mpCallBack : Descriptor → Option (CallBackT T κ)
  defaultCallBack : κ

variable {Msg T Descriptor κ : Type} [DecidableEq T] [DecidableEq Descriptor] (ty : Types Msg T Descriptor)

/-- The cast to the class is checked where assertions are. -/
def CallBackT.onMessage (c : CallBackT T κ) (pMessage : Msg) : Except Halt (κ × Msg) := do
  ensure (.assertion "NULL == pFrom || dynamic_cast<To*>(get_pointer(f)) != NULL") (ty.dynamicType pMessage = c.type)
  .ok (c.callBack,pMessage)

namespace ProtobufDispatcher

def new (rDefaultCB : κ) : ProtobufDispatcher T Descriptor κ := ⟨fun _ => none,rDefaultCB⟩

/-- The callback that is called, with the message. -/
def onProtobufMessage (d : ProtobufDispatcher T Descriptor κ) (pMessage : Msg) : Except Halt (κ × Msg) :=
  match d.mpCallBack (ty.getDescriptor pMessage) with
  | some c => c.onMessage ty pMessage
  | none => .ok (d.defaultCallBack,pMessage)

def registerMessageCallBack (d : ProtobufDispatcher T Descriptor κ) (c : CallBackT T κ) : ProtobufDispatcher T Descriptor κ :=
  { d with mpCallBack := Function.update d.mpCallBack (ty.descriptor c.type) (some c) }

end ProtobufDispatcher

open ProtobufDispatcher

/-- A dispatcher after some registrations. -/
def registered (rDefaultCB : κ) (cs : List (CallBackT T κ)) : ProtobufDispatcher T Descriptor κ :=
  cs.foldl (registerMessageCallBack ty) (new rDefaultCB)

/-- The last callback registered for a class. -/
def handler (rDefaultCB : κ) (cs : List (CallBackT T κ)) (type : T) : κ :=
  ((cs.reverse.find? fun c => c.type = type).map CallBackT.callBack).getD rDefaultCB

variable {ty}

/-- The map by descriptor is the list of registrations, read from its end. -/
theorem registered_eq (hty : Generated ty) (rDefaultCB : κ) (cs : List (CallBackT T κ)) :
    (registered ty rDefaultCB cs).defaultCallBack = rDefaultCB ∧
      ∀ type, (registered ty rDefaultCB cs).mpCallBack (ty.descriptor type) = cs.reverse.find? fun c => c.type = type := by
  induction cs using List.reverseRecOn with
  | nil => exact ⟨rfl,fun _ => rfl⟩
  | append_singleton cs c ih =>
    rw [registered,List.foldl_append]
    refine ⟨ih.1,fun type => ?_⟩
    rw [List.reverse_append,List.reverse_singleton,List.singleton_append,List.find?_cons]
    change Function.update (registered ty rDefaultCB cs).mpCallBack (ty.descriptor c.type) (some c) (ty.descriptor type) = _
    by_cases htype : c.type = type
    · rw [htype,Function.update_self,decide_eq_true rfl]
    · rw [Function.update_of_ne (hty.injective.ne (Ne.symm htype)),ih.2,decide_eq_false htype]

/-- The cast succeeds, and the callback is the one last registered for the message's class. -/
theorem onProtobufMessage_eq (hty : Generated ty) (rDefaultCB : κ) (cs : List (CallBackT T κ)) (m : Msg) :
    (registered ty rDefaultCB cs).onProtobufMessage ty m = .ok (handler rDefaultCB cs (ty.dynamicType m),m) := by
  obtain ⟨hdefault,hmap⟩ := registered_eq hty rDefaultCB cs
  rw [onProtobufMessage,hty.getDescriptor_eq,hmap,handler,hdefault]
  cases hfind : cs.reverse.find? fun c => c.type = ty.dynamicType m with
  | none => rfl
  | some c =>
    have htype : ty.dynamicType m = c.type := (of_decide_eq_true (List.find?_some (p := fun c : CallBackT T κ => decide (c.type = ty.dynamicType m)) hfind)).symm
    simp only [CallBackT.onMessage,ensure_of _ htype,ok_bind]
    rfl

theorem dispatch_eq (hty : Generated ty) (rDefaultCB : κ) (cs : List (CallBackT T κ)) (ms : List Msg) :
    ms.mapM ((registered ty rDefaultCB cs).onProtobufMessage ty) =
      .ok (ms.map fun m => (handler rDefaultCB cs (ty.dynamicType m),m)) := by
  induction ms with
  | nil => rfl
  | cons m ms ih => rw [List.mapM_cons,onProtobufMessage_eq hty,ih]; rfl

section Exchange
variable {rt : Runtime Msg Descriptor} {p : Exchange.End → Exchange.Program} {s : Exchange.End → Exchange.Peer Msg}

/-- With the dispatcher as the codec's message callback: every message that an end was given
went to one callback, the one registered last for its class or else the default one, in the
order in which the other end's Sends were executed, and no cast failed. -/
theorem dispatched_in_order (h : (Exchange.machine rt p).Reachable s) (x : Exchange.End) (hty : Generated ty)
    (rDefaultCB : κ) (cs : List (CallBackT T κ)) :
    ∃ calls, ((s x).delivered.filterMap Event.message?).mapM ((registered ty rDefaultCB cs).onProtobufMessage ty) = .ok calls ∧
      calls.length = (s x).delivered.length ∧
      calls.map Prod.snd <+: (s x.other).messages (s x.other).connection.accepted ∧
      ∀ call ∈ calls, call.1 = handler rDefaultCB cs (ty.dynamicType call.2) := by
  have hdelivered := (Exchange.reachable_inv h).delivered x
  generalize Decoder.complete (((s x.other).messages (s x.other).connection.accepted).map (frame rt)) (s x).taken = k at hdelivered
  have hmessages : (s x).delivered.filterMap Event.message? =
      ((s x.other).messages (s x.other).connection.accepted).take k := by
    rw [hdelivered,List.filterMap_map]
    exact List.filterMap_some
  refine ⟨_,dispatch_eq hty rDefaultCB cs _,?_,?_,fun call hcall => ?_⟩
  · rw [hmessages,hdelivered,List.length_map,List.length_map]
  · rw [hmessages,List.map_map]
    change ((_ : List Msg).map id) <+: _
    rw [List.map_id]
    exact List.take_prefix ..
  · obtain ⟨m,-,rfl⟩ := List.mem_map.mp hcall
    rfl

end Exchange

/-- One class, Test.Empty. -/
def emptyClass : Types (Option (Fin 128)) Unit Unit := ⟨fun _ => (),fun _ => (),id⟩

/-- Its callback was registered twice. -/
theorem dispatched_in_order_registeredTwice : ∃ s, (Exchange.machine emptyRuntime Exchange.plain).Reachable s ∧
    ∃ calls, ((s .server).delivered.filterMap Event.message?).mapM
        ((registered emptyClass 0 [⟨(),1⟩,⟨(),2⟩]).onProtobufMessage emptyClass) = .ok calls ∧
      calls.length = 1 ∧ ∀ call ∈ calls, call.1 = 2 := by
  obtain ⟨s,hr,hdelivered⟩ := (Exchange.machine emptyRuntime Exchange.plain).exists_reachable rfl Exchange.twoSends
    (fun s => (s .server).delivered) (b := [.message (some 43)]) (by decide +kernel)
  have hty : Generated emptyClass := ⟨fun _ => rfl,Function.injective_id⟩
  obtain ⟨calls,hcalls,hlength,-,hhandler⟩ := dispatched_in_order hr .server hty 0 [⟨(),1⟩,⟨(),2⟩]
  exact ⟨s,hr,calls,hcalls,by rw [hlength,hdelivered]; rfl,fun call hcall => hhandler call hcall⟩

end LinuxServer.Protobuf.Dispatcher
