import LinuxServer.Protobuf.RoundTrip

/-! What the sender may hand to the connection. The encoder checks no limit, so a
frame is admissible to the receiver exactly when its parts add up to one. -/
namespace LinuxServer.Protobuf
open LinuxServer.Lib LinuxServer.Reactor
variable {Msg Descriptor : Type} (rt : Runtime Msg Descriptor)

/-- Encode into a fresh buffer and hand its contents to the connection. -/
def send (rMessage : Msg) : Except Halt (List UInt8) := do
  let buf ← fillEmptyBuffer rt (some .new) rMessage
  .ok buf.readable

/-- The name length as the encoder announces it: an int32_t that counts the NUL. -/
def nameLen (m : Msg) : Int := (BitVec.ofNat 32 ((rt.typeName m).length + 1)).toInt

/-- A frame the receiver's limits allow: its length field is in range and tells how
many bytes follow, and no receiver answers it with the error for a bad length. -/
structure Admissible (bytes : List UInt8) : Prop where
  range : minMessageLength ≤ int32At (bytes.take 4) ∧ int32At (bytes.take 4) ≤ maxMessageLength
  length : int32At (bytes.take 4) = (bytes.drop 4).length
  accepted : ∀ {Msg Descriptor : Type} (peer : Runtime Msg Descriptor) (cb : Buffer → ErrorCode → Buffer) (b : Buffer),
    b.WF → b.readable = bytes → ∀ b' events, onMessage peer cb b = .ok (b',events) → .error .invalidLength ∉ events

/-- Whatever the encoder makes of the message, for Send or for a buffer of its
caller, is admissible. -/
def SendsAdmissible (m : Msg) : Prop :=
  (∀ bytes, send rt m = .ok bytes → Admissible bytes) ∧
    ∀ b₀ b, BufferQueue.Reached b₀ → b₀.readable = [] → fillEmptyBuffer rt (some b₀) m = .ok b → Admissible b.readable

/-- The parts add up to a length in the receiver's range, or the name is so long that
its announced length is negative, which the encoder does not survive. -/
def Within (m : Msg) : Prop :=
  nameLen rt m < 0 ∨ minMessageLength ≤ nameLen rt m + (rt.serialize m).length + 8 ∧
    nameLen rt m + (rt.serialize m).length + 8 ≤ maxMessageLength

instance (m : Msg) : Decidable (Within rt m) := inferInstanceAs (Decidable (_ ∨ _ ∧ _))

theorem nameLen_range (m : Msg) : -2 ^ 31 ≤ nameLen rt m ∧ nameLen rt m < 2 ^ 31 ∧
    nameLen rt m ≤ (rt.typeName m).length + 1 := by
  rw [nameLen,BitVec.toInt_ofNat',Int.bmod]
  omega

/-! The encoder, for every length of name and payload. -/

/-- With a negative name length it reads behind the name. -/
theorem fillEmptyBuffer_negative {b : Buffer} (h : b.WF) (he : b.readable = []) {m : Msg}
    (hname : (rt.typeName m).length < 2 ^ 63) (hneg : nameLen rt m < 0) :
    fillEmptyBuffer rt (some b) m = .error .outOfBounds := by
  have hempty : 0 = b.readableBytes := by rw [← h.readable_length,he]; rfl
  obtain ⟨b₁,he₁,-⟩ := Buffer.append_ok h (memoryBytes 4 (hostToNetwork32 (.ofNat 32 ((rt.typeName m).length + 1))))
  have hrange := nameLen_range rt m
  have hread : readMem (rt.typeName m ++ [0]) 0 (castSize (nameLen rt m)) = .error .outOfBounds := by
    have hout : ¬ ((0 : Int) ≤ 0 ∧ 0 + ((castSize (nameLen rt m) : Nat) : Int) ≤ (rt.typeName m ++ [0]).length) := by
      rw [List.length_append,List.length_singleton,castSize]
      omega
    rw [readMem,ensure_not _ hout]
    rfl
  rw [nameLen] at hread
  simp only [fillEmptyBuffer,ensure_of _ hempty,ok_bind,Buffer.appendInt32,he₁,hread]
  rfl

/-- Otherwise it runs to its end and writes a length field and as many bytes. -/
theorem fillEmptyBuffer_any {b : Buffer} (h : b.WF) (he : b.readable = []) {m : Msg}
    (hsize : (rt.byteSize m).toInt = (rt.serialize m).length) (hinit : rt.isInitialized m = true)
    (hname : 0 ≤ nameLen rt m) :
    ∃ b' body, fillEmptyBuffer rt (some b) m = .ok b' ∧ b'.readable = beBytes 4 body.length ++ body ∧
      (body.length : Int) = nameLen rt m + (rt.serialize m).length + 8 := by
  have hrange := nameLen_range rt m
  obtain ⟨k,hk⟩ := Int.eq_ofNat_of_zero_le hname
  obtain ⟨b',body,hrun,-,hread,hbody⟩ := fillEmptyBuffer_runs rt h he hsize hinit hk
  refine ⟨b',body,hrun,hread,?_⟩
  rw [hbody,List.length_append,beBytes_length,coveredBy_length (by omega)]
  omega

/-! The receiver. -/

/-- Parsing never gives the error for a bad length. -/
theorem bodyVerdict_ne_invalidLength (body : List UInt8) : (bodyVerdict rt body).2 ≠ .invalidLength := by
  simp only [bodyVerdict]
  split
  · split
    · split
      · dsimp only
        split <;> simp
      · simp
    · simp
  · simp

/-- A length field and as many bytes, no more than an int and a little can count. -/
theorem lengthField {body : List UInt8} : (beBytes 4 body.length ++ body).take 4 = beBytes 4 body.length ∧
    (beBytes 4 body.length ++ body).drop 4 = body :=
  ⟨List.take_left' (beBytes_length ..),List.drop_left' (beBytes_length ..)⟩

/-- A single frame of admissible length is consumed or fails for another reason. -/
theorem drain_admissible {body : List UInt8} (hmin : 10 ≤ body.length) (hmax : body.length ≤ 64 * 1024 * 1024) :
    ((decoder rt).drain (beBytes 4 body.length ++ body)).error ≠ some .invalidLength := by
  obtain ⟨htake,hdrop⟩ := @lengthField body
  have hlen : (beBytes 4 body.length ++ body).length = body.length + 4 := by
    rw [List.length_append,beBytes_length,Nat.add_comm]
  have hlook : (decoder rt).look (beBytes 4 body.length ++ body) =
      lookFrame rt body.length (beBytes 4 body.length ++ body) := by
    change look rt _ = _
    rw [look,if_neg (by omega),htake,int32At_beBytes,castInt32_natCast (by omega)]
  rw [lookFrame,if_neg (by simp only [maxMessageLength,minMessageLength,headerLength]; omega),Int.toNat_natCast,
    if_neg (by omega),hdrop,List.take_length] at hlook
  have hverdict := bodyVerdict_ne_invalidLength rt body
  cases hb : bodyVerdict rt body with
  | mk r e =>
    rw [hb] at hlook hverdict
    have hfail (h : (decoder rt).look (beBytes 4 body.length ++ body) = .fail e) :
        ((decoder rt).drain (beBytes 4 body.length ++ body)).error ≠ some .invalidLength := by
      rw [(decoder rt).drain_fail h]
      simpa using hverdict
    cases r with
    | none => exact hfail hlook
    | some m =>
      cases e with
      | noError =>
        rw [(decoder rt).drain_value hlook,List.drop_of_length_le hlen.le,(decoder rt).drain_wait (decoder rt).look_nil]
        simp
      | _ => exact hfail hlook

theorem admissible_iff {body : List UInt8} (hbound : body.length < 2 ^ 32 + 8) :
    Admissible (beBytes 4 body.length ++ body) ↔ 10 ≤ body.length ∧ body.length ≤ 64 * 1024 * 1024 := by
  obtain ⟨htake,hdrop⟩ := @lengthField body
  constructor
  · rintro ⟨⟨hmin,hmax⟩,-,-⟩
    rw [htake,int32At_beBytes,castInt32,Int.bmod] at hmin hmax
    simp only [maxMessageLength,minMessageLength,headerLength] at hmin hmax
    omega
  · rintro ⟨hmin,hmax⟩
    have hfield : int32At ((beBytes 4 body.length ++ body).take 4) = body.length := by
      rw [htake,int32At_beBytes,castInt32_natCast (by omega)]
    refine ⟨?_,by rw [hfield,hdrop],?_⟩
    · rw [hfield]
      simp only [maxMessageLength,minMessageLength,headerLength]
      omega
    · intro M D peer cb b hwf hread b' events hrun hmem
      obtain ⟨c,-,-,hloop⟩ := onMessage_ok peer cb hwf
      rw [hrun,hread] at hloop
      obtain ⟨-,rfl⟩ := Prod.mk.inj (Except.ok.inj hloop)
      rw [Protobuf.events,List.mem_append] at hmem
      rcases hmem with hmem | hmem
      · obtain ⟨m,-,hm⟩ := List.mem_map.mp hmem
        cases hm
      · have herr := drain_admissible peer hmin hmax
        cases he : ((decoder peer).drain (beBytes 4 body.length ++ body)).error with
        | none =>
          rw [he] at hmem
          simp at hmem
        | some e =>
          rw [he] at hmem herr
          simp only [Option.map_some,Option.toList_some,List.mem_singleton,Event.error.injEq] at hmem
          exact herr (congrArg some hmem.symm)

/-- A longer frame is refused for its length. -/
theorem onMessage_oversized (cb : Buffer → ErrorCode → Buffer) {b : Buffer} (h : b.WF) {body : List UInt8}
    (hread : b.readable = beBytes 4 body.length ++ body) (hmax : 64 * 1024 * 1024 < body.length) (hint : body.length < 2 ^ 31) :
    ∃ b', onMessage rt cb b = .ok (b',[.error .invalidLength]) := by
  obtain ⟨htake,hdrop⟩ := @lengthField body
  have hlen : (beBytes 4 body.length ++ body).length = body.length + 4 := by
    rw [List.length_append,beBytes_length,Nat.add_comm]
  have hlook : (decoder rt).look (beBytes 4 body.length ++ body) = .fail .invalidLength := by
    change look rt _ = _
    rw [look,if_neg (by omega),htake,int32At_beBytes,castInt32_natCast hint,lookFrame,if_pos]
    simp only [maxMessageLength]
    omega
  obtain ⟨b',-,-,hloop⟩ := onMessage_ok rt cb h
  rw [hread,(decoder rt).drain_fail hlook] at hloop
  exact ⟨_,hloop⟩

/-- The sender keeps to the receiver's limits exactly when the parts of the frame do. -/
theorem sendsAdmissible_iff {m : Msg} (hinit : rt.isInitialized m = true)
    (hsize : (rt.byteSize m).toInt = (rt.serialize m).length) (hname : (rt.typeName m).length < 2 ^ 63) :
    SendsAdmissible rt m ↔ Within rt m := by
  by_cases hneg : nameLen rt m < 0
  · refine iff_of_true ⟨?_,?_⟩ (.inl hneg)
    · intro bytes hsend
      rw [send,fillEmptyBuffer_negative rt Buffer.new_wf Buffer.readable_new hname hneg] at hsend
      cases hsend
    · intro b₀ b hb he hrun
      rw [fillEmptyBuffer_negative rt hb.wf he hname hneg] at hrun
      cases hrun
  · have hnonneg := not_lt.mp hneg
    have hrange := nameLen_range rt m
    have hpay := BitVec.toInt_lt (x := rt.byteSize m)
    have hwithin : Within rt m ↔ minMessageLength ≤ nameLen rt m + (rt.serialize m).length + 8 ∧
        nameLen rt m + (rt.serialize m).length + 8 ≤ maxMessageLength := or_iff_right hneg
    have hbody {body : List UInt8} (hlen : (body.length : Int) = nameLen rt m + (rt.serialize m).length + 8) :
        Admissible (beBytes 4 body.length ++ body) ↔ Within rt m := by
      rw [hwithin,← hlen,admissible_iff (by omega)]
      simp only [maxMessageLength,minMessageLength,headerLength]
      omega
    constructor
    · rintro ⟨hsend,-⟩
      obtain ⟨b,body,hrun,hread,hlen⟩ := fillEmptyBuffer_any rt Buffer.new_wf Buffer.readable_new hsize hinit hnonneg
      have hadm := hsend b.readable (by rw [send,hrun]; rfl)
      rw [hread] at hadm
      exact (hbody hlen).mp hadm
    · intro hw
      have hall {b₀ b : Buffer} (hwf : b₀.WF) (he : b₀.readable = []) (hrun : fillEmptyBuffer rt (some b₀) m = .ok b) :
          Admissible b.readable := by
        obtain ⟨b',body,hrun',hread,hlen⟩ := fillEmptyBuffer_any rt hwf he hsize hinit hnonneg
        cases hrun.symm.trans hrun'
        rw [hread]
        exact (hbody hlen).mpr hw
      refine ⟨?_,fun b₀ b hb he hrun => hall hb.wf he hrun⟩
      intro bytes hsend
      obtain ⟨b,hrun,hbytes⟩ := (bind_ok_iff _ _ _).mp hsend
      cases hbytes
      exact hall Buffer.new_wf Buffer.readable_new hrun

/-- Messages of one type, each a number of zero bytes. -/
def zerosRuntime : Runtime Nat Unit where
  typeName _ := [90]
  isInitialized _ := true
  byteSize n := .ofNat 32 n
  serialize n := List.replicate n 0
  findMessageTypeByName name := if name = [90] then some () else none
  getPrototype _ := some 0
  new _ := 0
  parseFromArray _ bytes := (bytes.length,bytes.all (· = 0))
  adler32 := zlibAdler32

theorem sendsAdmissible_iff_zeros : SendsAdmissible zerosRuntime 3 :=
  (sendsAdmissible_iff zerosRuntime rfl rfl (by decide)).mpr (by decide)

/-- A message of 64 MiB goes out in a frame that the peer refuses for its length. -/
theorem send_exceeds_limit :
    ∃ b body, send zerosRuntime (64 * 1024 * 1024) = .ok (beBytes 4 body.length ++ body) ∧ body.length = 64 * 1024 * 1024 + 10 ∧
      BufferQueue.Reached b ∧ b.readable = beBytes 4 body.length ++ body ∧
      (∃ b', onMessage zerosRuntime (fun b _ => b) b = .ok (b',[.error .invalidLength])) ∧
      ¬ SendsAdmissible zerosRuntime (64 * 1024 * 1024) := by
  have hsize : (zerosRuntime.byteSize (64 * 1024 * 1024)).toInt = (zerosRuntime.serialize (64 * 1024 * 1024)).length := by
    change _ = ((List.replicate (64 * 1024 * 1024) (0 : UInt8)).length : Int)
    rw [List.length_replicate]
    rfl
  have hname : nameLen zerosRuntime (64 * 1024 * 1024) = 2 := rfl
  obtain ⟨b,body,hrun,hread,hlen⟩ := fillEmptyBuffer_any zerosRuntime Buffer.new_wf Buffer.readable_new hsize rfl
    (by rw [hname]; decide)
  have hbody : body.length = 64 * 1024 * 1024 + 10 := by
    have hpay : (zerosRuntime.serialize (64 * 1024 * 1024)).length = 64 * 1024 * 1024 := List.length_replicate
    rw [hname,hpay] at hlen
    omega
  obtain ⟨peer,hpeer,hbytes⟩ := BufferQueue.exists_reached (beBytes 4 body.length ++ body)
  refine ⟨peer,body,?_,hbody,hpeer,hbytes,onMessage_oversized _ _ hpeer.wf hbytes (by omega) (by omega),?_⟩
  · rw [send,hrun,← hread]
    rfl
  · rintro ⟨hsend,-⟩
    have hadm := hsend b.readable (by rw [send,hrun]; rfl)
    rw [hread,admissible_iff (by omega)] at hadm
    omega

end LinuxServer.Protobuf
