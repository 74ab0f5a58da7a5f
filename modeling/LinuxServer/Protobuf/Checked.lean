import LinuxServer.Protobuf.Codec

/-! The codec once more, under stricter rules: a frame is read from its own bytes only,
lengths keep their values in every conversion, and each frame brings the loop on. -/
namespace LinuxServer.Protobuf
open LinuxServer.Lib LinuxServer.Reactor

/-- Conversions to unsigned types that may not change the value. -/
def exactSize (x : Int) : Except Halt Nat := do
  ensure .overflow (0 ≤ x ∧ x < 2 ^ 64)
  .ok x.toNat

def exactUInt (x : Int) : Except Halt Nat := do
  ensure .overflow (0 ≤ x ∧ x < 2 ^ 32)
  .ok x.toNat

section Codec
variable {Msg Descriptor : Type} (rt : Runtime Msg Descriptor)

/-- Parse with nothing but the frame body in memory. -/
def parseChecked (body : List UInt8) (nLength : Int) : Except Halt (Option Msg × ErrorCode) := do
  let nEnd ← int32 (nLength - headerLength)
  let nExpectedCheckSum ← asInt32 body nEnd
  let nCovered ← int32 (nLength - headerLength)
  let unCovered ← exactUInt nCovered
  let covered ← readMem body 0 unCovered
  let nCheckSum := castInt32 (rt.adler32 1 covered)
  if nCheckSum = nExpectedCheckSum then
    let nNameLength ← asInt32 body 0
    let nNameMax ← int32 (nLength - 2 * headerLength)
    if 2 ≤ nNameLength ∧ nNameLength ≤ nNameMax then
      let unName ← exactSize (nNameLength - 1)
      let strTypeName ← readMem body headerLength unName
      match createMessage rt strTypeName with
      | some pMessage =>
        let nRest ← int32 (nLength - nNameLength)
        let nDataLen ← int32 (nRest - 2 * headerLength)
        let unDataLen ← exactSize nDataLen
        let data ← readMem body (headerLength + nNameLength) unDataLen
        let (parsed,success) := rt.parseFromArray pMessage data
        .ok (some parsed,if success then .noError else .parseError)
      | none => .ok (none,.unknownMessageType)
    else .ok (none,.invalidNameLen)
  else .ok (none,.checkSumError)

/-- OnMessage with nothing but the readable bytes in memory. A frame that takes fewer
bytes than the smallest one ends the run like an exhausted bound on the iterations. -/
def onMessageLoopChecked (errorCallBack : Buffer → ErrorCode → Buffer) :
    Nat → Buffer → Except Halt (Buffer × List (Event Msg))
  | 0, _ => .error .outOfFuel
  | fuel+1, b => do
    let unMin ← exactSize (minMessageLength + headerLength)
    if unMin ≤ b.readableBytes then do
      let nLen ← asInt32 b.readable 0
      if maxMessageLength < nLen ∨ nLen < minMessageLength then
        .ok (errorCallBack b .invalidLength,[.error .invalidLength])
      else do
        let nFrame ← int32 (nLen + headerLength)
        let unFrame ← exactSize nFrame
        if unFrame ≤ b.readableBytes then do
          let unBody ← exactSize nLen
          let body ← readMem b.readable headerLength unBody
          let answer ← parseChecked rt body nLen
          match answer with
          | (some pMessage,.noError) => do
            let nConsumed ← int32 (headerLength + nLen)
            let unConsumed ← exactSize nConsumed
            ensure .outOfFuel (unMin ≤ unConsumed)
            let b' ← b.retrieve unConsumed
            let (b'',events) ← onMessageLoopChecked errorCallBack fuel b'
            .ok (b'',.message pMessage :: events)
          | (_,eErr) => .ok (errorCallBack b eErr,[.error eErr])
        else .ok (b,[])
    else .ok (b,[])

/-- At most one iteration for every fourteen bytes, and the last. -/
def onMessageChecked (errorCallBack : Buffer → ErrorCode → Buffer) (b : Buffer) :
    Except Halt (Buffer × List (Event Msg)) :=
  onMessageLoopChecked rt errorCallBack (b.readableBytes / 14 + 1) b

end Codec

/-! What passes the stricter rules passes the code's own, with the same answer. -/

theorem int32_ok_iff {x y : Int} : int32 x = .ok y ↔ (-2 ^ 31 ≤ x ∧ x < 2 ^ 31) ∧ x = y := by
  simp only [int32,bind_ok_iff,ensure_ok_iff,exists_const,Except.ok.injEq]
theorem exactSize_ok_iff {x : Int} {n : Nat} : exactSize x = .ok n ↔ x = n ∧ n < 2 ^ 64 := by
  simp only [exactSize,bind_ok_iff,ensure_ok_iff,exists_const,Except.ok.injEq]
  omega
theorem exactUInt_ok_iff {x : Int} {n : Nat} : exactUInt x = .ok n ↔ x = n ∧ n < 2 ^ 32 := by
  simp only [exactUInt,bind_ok_iff,ensure_ok_iff,exists_const,Except.ok.injEq]
  omega

theorem castSize_of_exact {x : Int} {n : Nat} (h : exactSize x = .ok n) : castSize x = n := by
  obtain ⟨rfl,hn⟩ := exactSize_ok_iff.mp h
  simp only [castSize]
  omega
theorem castUInt_of_exact {x : Int} {n : Nat} (h : exactUInt x = .ok n) : castUInt x = n := by
  obtain ⟨rfl,hn⟩ := exactUInt_ok_iff.mp h
  simp only [castUInt]
  omega

/-- Memory that was read stays the same with more behind it. -/
theorem readMem_append {buf r : List UInt8} (tail : List UInt8) {i : Int} {n : Nat} (h : readMem buf i n = .ok r) :
    readMem (buf ++ tail) i n = .ok r := by
  obtain ⟨_,hin,hr⟩ := (bind_ok_iff _ _ _).mp h
  rw [ensure_ok_iff] at hin
  have hin' : 0 ≤ i ∧ i + n ≤ ((buf ++ tail).length : Int) := by
    rw [List.length_append]
    omega
  rw [readMem,ensure_of _ hin',ok_bind,← hr,List.drop_append_of_le_length (by omega),
    List.take_append_of_le_length (by rw [List.length_drop]; omega)]
theorem asInt32_append {buf : List UInt8} (tail : List UInt8) {i v : Int} (h : asInt32 buf i = .ok v) :
    asInt32 (buf ++ tail) i = .ok v := by
  obtain ⟨bytes,hbytes,hv⟩ := (bind_ok_iff _ _ _).mp h
  rw [asInt32,readMem_append tail hbytes,ok_bind,hv]

section Codec
variable {Msg Descriptor : Type} (rt : Runtime Msg Descriptor)

theorem parse_of_checked {body : List UInt8} (tail : List UInt8) {nLength : Int} {r : Option Msg × ErrorCode}
    (h : parseChecked rt body nLength = .ok r) : parse rt (body ++ tail) nLength = .ok r := by
  simp only [parseChecked,bind_ok_iff] at h
  obtain ⟨nEnd,hint,sum,hsum,nCovered,hint',un,hun,covered,hcovered,h⟩ := h
  have hend := (int32_ok_iff.mp hint).2
  rw [← hend] at hsum
  rw [parse,asInt32_append tail hsum,ok_bind,hint',ok_bind,castUInt_of_exact hun,readMem_append tail hcovered,ok_bind]
  split at h
  · rename_i heq
    rw [if_pos heq]
    obtain ⟨k,hk,h⟩ := (bind_ok_iff _ _ _).mp h
    obtain ⟨nameMax,hmax,h⟩ := (bind_ok_iff _ _ _).mp h
    rw [asInt32_append tail hk,ok_bind,hmax,ok_bind]
    split at h
    · rename_i hname
      rw [if_pos hname]
      obtain ⟨unName,hunName,h⟩ := (bind_ok_iff _ _ _).mp h
      obtain ⟨name,hread,h⟩ := (bind_ok_iff _ _ _).mp h
      rw [castSize_of_exact hunName,readMem_append tail hread,ok_bind]
      cases hcreate : createMessage rt name with
      | none =>
        rw [hcreate] at h
        exact h
      | some p =>
        simp only [hcreate,bind_ok_iff] at h
        obtain ⟨rest,hrest,len,hlen,unData,hunData,data,hdata,h⟩ := h
        simp only [hrest,ok_bind,hlen,castSize_of_exact hunData,readMem_append tail hdata]
        exact h
    · rename_i hname
      rw [if_neg hname]
      exact h
  · rename_i hne
    rw [if_neg hne]
    exact h

/-- The length field, and the body behind it with whatever else is in the vector. -/
private theorem peekInt32_of_read {b : Buffer} (hwf : b.WF) {v : Int} (h : asInt32 b.readable 0 = .ok v) :
    ∃ w, b.peekInt32 = .ok w ∧ w.toInt = v := by
  obtain ⟨bytes,hbytes,hv⟩ := (bind_ok_iff _ _ _).mp h
  obtain ⟨_,hin,hread⟩ := (bind_ok_iff _ _ _).mp hbytes
  rw [ensure_ok_iff,hwf.readable_length] at hin
  have hlong : 4 ≤ b.readableBytes := by omega
  have hfour : b.readable.take 4 = bytes := Except.ok.inj hread
  refine ⟨_,?_,Except.ok.inj hv⟩
  rw [Buffer.peekInt32,ensure_of _ hlong,ok_bind,Buffer.peek_ok hwf hlong,ok_bind,hfour]

private theorem body_of_read {b : Buffer} (hwf : b.WF) {n : Nat} {body : List UInt8}
    (h : readMem b.readable headerLength n = .ok body) :
    ∃ tail, b.vBuffer.drop (b.readerIndex + headerLength.toNat) = body ++ tail := by
  obtain ⟨_,hin,hread⟩ := (bind_ok_iff _ _ _).mp h
  rw [ensure_ok_iff,headerLength,hwf.readable_length] at hin
  have hlen := hwf.readable_length
  have hp : (b.vBuffer.take b.readerIndex).length = b.readerIndex := by
    have := hwf.reader_le
    have := hwf.writer_le
    rw [List.length_take]
    omega
  refine ⟨(b.readable.drop 4).drop n ++ b.vBuffer.drop b.writerIndex,?_⟩
  rw [← Except.ok.inj hread,← List.append_assoc]
  change _ = (b.readable.drop 4).take n ++ _ ++ _
  rw [List.take_append_drop]
  conv_lhs => rw [hwf.split,List.append_assoc,← List.drop_drop,List.drop_left' hp]
  exact List.drop_append_of_le_length (by change 4 ≤ _; omega)

private theorem retrieve_wf {b b' : Buffer} (hwf : b.WF) {n : Nat} (h : b.retrieve n = .ok b') : b'.WF := by
  obtain ⟨_,hn,-⟩ := (bind_ok_iff _ _ _).mp h
  obtain ⟨b₁,h₁,hwf₁,-⟩ := Buffer.retrieve_ok hwf ((ensure_ok_iff _ _ _).mp hn)
  cases h.symm.trans h₁
  exact hwf₁

/-- A run of the stricter loop is one of the code's, also with more iterations left. -/
theorem onMessageLoop_of_checked {cb : Buffer → ErrorCode → Buffer} {fuel fuel' : Nat} (hfuel : fuel ≤ fuel')
    {b : Buffer} (hwf : b.WF) {r : Buffer × List (Event Msg)} (h : onMessageLoopChecked rt cb fuel b = .ok r) :
    onMessageLoop rt cb fuel' b = .ok r := by
  induction fuel generalizing fuel' b r with
  | zero => cases h
  | succ fuel ih =>
    cases fuel' with
    | zero => omega
    | succ fuel' =>
      obtain ⟨unMin,hmin,h⟩ := (bind_ok_iff _ _ _).mp h
      rw [onMessageLoop,castSize_of_exact hmin]
      split at h
      · rename_i hlong
        obtain ⟨nLen,hread,h⟩ := (bind_ok_iff _ _ _).mp h
        obtain ⟨v,hv,rfl⟩ := peekInt32_of_read hwf hread
        rw [if_pos hlong,hv,ok_bind]
        split at h
        · rename_i hbad
          rw [if_pos hbad]
          exact h
        · rename_i hbad
          obtain ⟨nFrame,hframe,h⟩ := (bind_ok_iff _ _ _).mp h
          obtain ⟨unFrame,hunFrame,h⟩ := (bind_ok_iff _ _ _).mp h
          rw [if_neg hbad,hframe,ok_bind,castSize_of_exact hunFrame]
          split at h
          · rename_i hwhole
            obtain ⟨unBody,hunBody,h⟩ := (bind_ok_iff _ _ _).mp h
            obtain ⟨body,hbody,h⟩ := (bind_ok_iff _ _ _).mp h
            obtain ⟨⟨pMessage,eErr⟩,hparse,h⟩ := (bind_ok_iff _ _ _).mp h
            obtain ⟨tail,htail⟩ := body_of_read hwf hbody
            rw [if_pos hwhole,htail,parse_of_checked rt tail hparse,ok_bind]
            cases pMessage with
            | none => exact h
            | some m =>
              cases eErr with
              | noError =>
                simp only [bind_ok_iff] at h
                obtain ⟨nConsumed,hconsumed,un,hun,_,-,b',hretrieve,⟨b'',events⟩,hrest,h⟩ := h
                have hwf' := retrieve_wf hwf hretrieve
                simp only [hconsumed,ok_bind,castSize_of_exact hun,hretrieve,ih (Nat.le_of_succ_le_succ hfuel) hwf' hrest]
                exact h
              | _ => exact h
          · rename_i hpart
            rw [if_neg hpart]
            exact h
      · rename_i hshort
        rw [if_neg hshort]
        exact h

end Codec

end LinuxServer.Protobuf
