import LinuxServer.Protobuf.Exchange
import LinuxServer.Protobuf.Query

/-! Messages of the generated classes between two programs: which of them can be sent. -/
namespace LinuxServer.Protobuf
open LinuxServer.Lib LinuxServer.Reactor Exchange

variable {F : Type}

abbrev Message (F : Type) := (c : ClassName) × MessageOf F c

def ClassName.fullName : ClassName → List UInt8
  | .query => "Test.Query".toUTF8.data.toList
  | .answer => "Test.Answer".toUTF8.data.toList
  | .empty => "Test.Empty".toUTF8.data.toList

/-- The protobuf runtime over the generated classes, as documented: ParseFromArray clears the
message, merges the bytes, and wants all of them consumed and no required field missing. -/
structure Serves (rt : Runtime (Message F) ClassName) (w : CodedStream F) : Prop where
  typeName : ∀ c m, rt.typeName ⟨c,m⟩ = c.fullName
  isInitialized : ∀ c m, rt.isInitialized ⟨c,m⟩ = (generated w c).isInitialized m
  byteSize : ∀ c m, rt.byteSize ⟨c,m⟩ = (generated w c).byteSize m
  serialize : ∀ c m, rt.serialize ⟨c,m⟩ = (generated w c).serializeWithCachedSizes m
  findMessageTypeByName : ∀ c, rt.findMessageTypeByName c.fullName = some c
  getPrototype : ∀ c, rt.getPrototype c = some ⟨c,(generated w c).new⟩
  new : ∀ c m, rt.new ⟨c,m⟩ = ⟨c,(generated w c).new⟩
  parseFromArray : ∀ c m data m', rt.parseFromArray ⟨c,m⟩ data = (m',true) ↔ ∃ p, m' = ⟨c,p⟩ ∧
    mergePartialFromCodedStream w c (generated w c).new data = .ok (some (p,true)) ∧ (generated w c).isInitialized p = true

def parseFromArray (w : CodedStream F) (m : Message F) (data : List UInt8) : Message F × Bool :=
  match mergePartialFromCodedStream w m.1 (generated w m.1).new data with
  | .ok (some (p,true)) => (⟨m.1,p⟩,(generated w m.1).isInitialized p)
  | _ => (m,false)

/-- The descriptor pool has the messages of query.proto. -/
def queryRuntime (w : CodedStream F) : Runtime (Message F) ClassName where
  typeName m := m.1.fullName
  isInitialized m := (generated w m.1).isInitialized m.2
  byteSize m := (generated w m.1).byteSize m.2
  serialize m := (generated w m.1).serializeWithCachedSizes m.2
  findMessageTypeByName name := [.query,.answer,.empty].find? fun c => c.fullName = name
  getPrototype c := some ⟨c,(generated w c).new⟩
  new m := ⟨m.1,(generated w m.1).new⟩
  parseFromArray := parseFromArray w
  adler32 := zlibAdler32

private theorem find_fullName (c : ClassName) :
    [ClassName.query,.answer,.empty].find? (fun c' => c'.fullName = c.fullName) = some c := by
  cases c <;> decide

theorem serves_queryRuntime (w : CodedStream F) : Serves (queryRuntime w) w := by
  refine ⟨fun _ _ => rfl,fun _ _ => rfl,fun _ _ => rfl,fun _ _ => rfl,fun c => ?_,fun _ => rfl,fun _ _ => rfl,fun c m data m' => ?_⟩
  · exact find_fullName c
  · change parseFromArray w ⟨c,m⟩ data = (m',true) ↔ _
    rw [parseFromArray]
    constructor
    · intro h
      split at h
      · rename_i p hparse
        obtain ⟨rfl,hinit⟩ := Prod.mk.inj h
        exact ⟨p,rfl,hparse,hinit⟩
      · cases h
    · rintro ⟨p,rfl,hparse,hinit⟩
      simp only [hparse,hinit]

section Serves
variable {rt : Runtime (Message F) ClassName} {w : CodedStream F}

private theorem Serves.parsesInitialized (hrt : Serves rt w) : ParsesInitialized rt := by
  rintro ⟨c,m⟩ bytes m' h
  obtain ⟨p,rfl,-,hinit⟩ := (hrt.parseFromArray c m bytes m').mp h
  rw [hrt.isInitialized,hinit]

private theorem Serves.faithful (hw : w.Documented) (hrt : Serves rt w) {c : ClassName} {m : MessageOf F c} (hm : WellFormed w c m)
    (hinit : (generated w c).isInitialized m = true) (hsmall : ((generated w c).serializeWithCachedSizes m).length < 2 ^ 31) : Faithful rt ⟨c,m⟩ := by
  have hlaw := lawful hw c
  refine ⟨?_,fun d p hd hp => ?_⟩
  · rw [hrt.byteSize,hrt.serialize]
    exact (hlaw.byteSize_eq m).toInt_eq hsmall
  · rw [hrt.typeName,hrt.findMessageTypeByName] at hd
    cases hd
    rw [hrt.getPrototype] at hp
    cases hp
    rw [hrt.new,hrt.serialize]
    have hleads := hlaw.leads (generated w c).new m hm
    rw [hlaw.new_merge] at hleads
    refine (hrt.parseFromArray c _ _ _).mpr ⟨m,rfl,?_,hinit⟩
    exact (MessageClass.mergePartial_eq_merge hw hlaw.regular ..).trans (congrArg _ (hleads.merge_eq hw hlaw.regular))

/-! Which messages. -/

theorem length_fullName (c : ClassName) : 10 ≤ c.fullName.length ∧ c.fullName.length ≤ 11 := by
  cases c <;> decide

/-- A program can send exactly the messages whose required fields are set and whose frame is
within the limit, and receives no others: the generated classes do all that is assumed of them. -/
theorem sendable_iff (hw : w.Documented) (hrt : Serves rt w) (c : ClassName) {m : MessageOf F c} (hm : WellFormed w c m) :
    ParsesInitialized rt ∧ (Sendable rt ⟨c,m⟩ ↔ (generated w c).isInitialized m = true ∧
      ((c.fullName.length + ((generated w c).serializeWithCachedSizes m).length + 9 : Nat) : Int) ≤ maxMessageLength) := by
  have hlength : (layout rt (rt.typeName ⟨c,m⟩) (rt.serialize ⟨c,m⟩)).length =
      c.fullName.length + ((generated w c).serializeWithCachedSizes m).length + 9 := by
    rw [layout_length,hrt.typeName,hrt.serialize]
  refine ⟨hrt.parsesInitialized,?_,?_⟩
  · intro h
    have hfits := h.fits
    rw [hlength] at hfits
    exact ⟨(hrt.isInitialized c m).symm.trans h.initialized,hfits⟩
  · rintro ⟨hinit,hfits⟩
    have hsmall : ((generated w c).serializeWithCachedSizes m).length < 2 ^ 31 := by
      rw [maxMessageLength] at hfits
      omega
    refine ⟨(hrt.isInitialized c m).trans hinit,?_,hrt.faithful hw hm hinit hsmall,?_,?_⟩
    · exact ⟨c,⟨c,(generated w c).new⟩,by rw [hrt.typeName,hrt.findMessageTypeByName],hrt.getPrototype c⟩
    · rw [hrt.typeName]
      have hpos := (length_fullName c).1
      exact List.ne_nil_of_length_pos (by omega)
    · rw [hlength]
      exact hfits

theorem sendable_iff_leon : Sendable (queryRuntime Varint.stream) ⟨.query,leon⟩ :=
  (sendable_iff Varint.documented (serves_queryRuntime _) .query leon_wf).2.mpr ⟨rfl,by decide +kernel⟩

end Serves

end LinuxServer.Protobuf
