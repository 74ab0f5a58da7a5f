import LinuxServer.Lib.CText
import LinuxServer.Lib.Numerals
import LinuxServer.Reactor.Buffer

/-! Addresses as text, by two functions with buffers of different sizes, and from host
names, by a loop with growing buffers. -/
namespace LinuxServer.Reactor
open LinuxServer.Lib

/-- sockaddr_in of AF_INET: both members are in network order. -/
structure SockAddrIn where
  sin_port : BitVec 16
  sin_addr : BitVec 32
  deriving DecidableEq

def inetAddrStrLen : Nat := 16

/-- Memory of a size, as the stack has left it. -/
abbrev Memory (size : Nat) := { mem : List Char // mem.length = size }

/-- Numerals with dots between them. -/
def dotted (numbers : List Nat) : List Char := ['.'].intercalate (numbers.map (Nat.toDigits 10))

/-- The bytes of the address in the order of memory. -/
def octets (sin_addr : BitVec 32) : List Nat := (memoryBytes 4 sin_addr).map UInt8.toNat

/-- inet_ntop for AF_INET: the dotted quad with its terminator, or nothing at all where it does not fit. -/
def inet_ntop (sin_addr : BitVec 32) (mem : List Char) (size : Nat) : Except Halt (List Char) :=
  let text := dotted (octets sin_addr)
  if text.length < size then do
    ensure .outOfBounds (text.length + 1 ≤ mem.length)
    .ok (text ++ terminator :: mem.drop (text.length + 1))
  else .ok mem

namespace Sockets

/-- Into a buffer of the caller. -/
def toHostPort (pStrBuf : List Char) (unSize : Nat) (rAddr : SockAddrIn) : Except Halt (List Char) := do
  let mem ← inet_ntop rAddr.sin_addr ("INVALID".toList ++ List.replicate 9 terminator) inetAddrStrLen
  let host ← CString.ofMemory mem
  let usPort := networkToHost16 rAddr.sin_port
  let (pStrBuf,_) ← snprintf pStrBuf unSize (host.chars ++ ':' :: Nat.toDigits 10 usPort.toNat)
  .ok pStrBuf

end Sockets

namespace InetAddress

def toHostPort (m_SockAddr : SockAddrIn) (buf : Memory inetAddrStrLen) : Except Halt CString := do
  let mem ← Sockets.toHostPort buf.val inetAddrStrLen m_SockAddr
  CString.ofMemory mem

def toIpPort (m_SockAddr : SockAddrIn) : Except Halt CString := do
  let buf ← inet_ntop m_SockAddr.sin_addr (List.replicate 32 terminator) 32
  let host ← CString.ofMemory buf
  let nEnd := host.strlen
  let usPort := networkToHost16 m_SockAddr.sin_port
  let (rest,_) ← snprintf (buf.drop nEnd) (32 - nEnd) (':' :: Nat.toDigits 10 usPort.toNat)
  CString.ofMemory (buf.take nEnd ++ rest)

/-- The complete rendering: the dotted quad, a colon and the port. -/
def rendering (m_SockAddr : SockAddrIn) : List Char :=
  dotted (octets m_SockAddr.sin_addr) ++ ':' :: Nat.toDigits 10 (networkToHost16 m_SockAddr.sin_port).toNat

def digits (n : Nat) : Nat := (Nat.toDigits 10 n).length

/-- The digits of the octets and of the port. -/
def digitCount (m_SockAddr : SockAddrIn) : Nat :=
  ((octets m_SockAddr.sin_addr).map digits).sum + digits (networkToHost16 m_SockAddr.sin_port).toNat

/-! The text. -/

theorem dotted_cons (n m : Nat) (numbers : List Nat) :
    dotted (n :: m :: numbers) = Nat.toDigits 10 n ++ ['.'] ++ dotted (m :: numbers) := List.intercalate_cons_cons

theorem dotted_singleton (n : Nat) : dotted [n] = Nat.toDigits 10 n := List.intercalate_singleton

theorem mem_dotted {numbers : List Nat} {c : Char} (h : c ∈ dotted numbers) : FieldChar c ∨ c = '.' := by
  induction numbers with
  | nil => cases h
  | cons n numbers ih =>
    cases numbers with
    | nil =>
      rw [dotted_singleton] at h
      exact .inl (fieldChar_toDigits h)
    | cons m numbers =>
      rw [dotted_cons,List.mem_append,List.mem_append,List.mem_singleton] at h
      rcases h with (h | h) | h
      · exact .inl (fieldChar_toDigits h)
      · exact .inr h
      · exact ih h

theorem length_dotted {numbers : List Nat} (h : numbers ≠ []) :
    (dotted numbers).length + 1 = (numbers.map digits).sum + numbers.length := by
  induction numbers with
  | nil => exact absurd rfl h
  | cons n numbers ih =>
    cases numbers with
    | nil =>
      rw [dotted_singleton]
      rfl
    | cons m numbers =>
      have hrest := ih (List.cons_ne_nil m numbers)
      have hsum : ((n :: m :: numbers).map digits).sum = (Nat.toDigits 10 n).length + ((m :: numbers).map digits).sum :=
        List.sum_cons
      rw [dotted_cons,hsum,List.length_append,List.length_append,List.length_singleton,List.length_cons]
      omega

/-- The numerals are read back from between the dots. -/
theorem dotted_injective {ns ms : List Nat} (hn : ns ≠ []) (hm : ms ≠ []) (h : dotted ns = dotted ms) : ns = ms := by
  have hfree (numbers : List Nat) : ∀ l ∈ numbers.map (Nat.toDigits 10), '.' ∉ l := by
    intro l hl hdot
    obtain ⟨n,-,rfl⟩ := List.mem_map.mp hl
    exact absurd (fieldChar_toDigits hdot) (by decide)
  have hsplit := congrArg (List.splitOn '.') h
  rw [dotted,dotted,List.splitOn_intercalate _ (hfree ns) (by simpa using hn),
    List.splitOn_intercalate _ (hfree ms) (by simpa using hm)] at hsplit
  exact List.map_injective_iff.mpr toDigits_injective hsplit

theorem colon_notMem_dotted (numbers : List Nat) : ':' ∉ dotted numbers := by
  intro h
  rcases mem_dotted h with hfield | hdot
  · exact absurd hfield (by decide)
  · exact absurd hdot (by decide)

theorem terminator_notMem_dotted (numbers : List Nat) : terminator ∉ dotted numbers := by
  intro h
  rcases mem_dotted h with hfield | hdot
  · exact absurd hfield (by decide)
  · exact absurd hdot (by decide)

theorem terminator_notMem_port (n : Nat) : terminator ∉ ':' :: Nat.toDigits 10 n := by
  intro h
  rcases List.mem_cons.mp h with hcolon | hdigit
  · exact absurd hcolon (by decide)
  · exact absurd (fieldChar_toDigits hdigit) (by decide)

theorem terminator_notMem_rendering (m_SockAddr : SockAddrIn) : terminator ∉ rendering m_SockAddr := by
  rw [rendering,List.mem_append]
  exact not_or.mpr ⟨terminator_notMem_dotted _,terminator_notMem_port _⟩

def renderingString (m_SockAddr : SockAddrIn) : CString := ⟨rendering m_SockAddr,terminator_notMem_rendering m_SockAddr⟩

/-! Lengths. -/

theorem octets_length (sin_addr : BitVec 32) : (octets sin_addr).length = 4 := by
  rw [octets,List.length_map,memoryBytes,leBytes_length]

theorem octets_ne_nil (sin_addr : BitVec 32) : octets sin_addr ≠ [] :=
  List.ne_nil_of_length_eq_add_one (octets_length sin_addr)

theorem length_dotted_octets (sin_addr : BitVec 32) : (dotted (octets sin_addr)).length ≤ 15 := by
  have hsum : ((octets sin_addr).map digits).sum ≤ ((octets sin_addr).map digits).length • 3 := by
    apply List.sum_le_card_nsmul
    intro k hk
    obtain ⟨n,hn,rfl⟩ := List.mem_map.mp hk
    obtain ⟨b,-,rfl⟩ := List.mem_map.mp hn
    exact (Nat.length_toDigits_le_iff (by decide) (by decide)).mpr (b.toNat_lt.trans (by decide))
  have hlen := length_dotted (octets_ne_nil sin_addr)
  rw [List.length_map,octets_length,smul_eq_mul] at hsum
  rw [octets_length] at hlen
  omega

theorem length_port (sin_port : BitVec 16) : (Nat.toDigits 10 (networkToHost16 sin_port).toNat).length ≤ 5 :=
  (Nat.length_toDigits_le_iff (by decide) (by decide)).mpr ((networkToHost16 sin_port).isLt.trans (by decide))

theorem length_rendering (m_SockAddr : SockAddrIn) : (rendering m_SockAddr).length = digitCount m_SockAddr + 4 := by
  have hlen := length_dotted (octets_ne_nil m_SockAddr.sin_addr)
  rw [octets_length] at hlen
  rw [rendering,digitCount,List.length_append,List.length_cons,digits]
  omega

/-! Both functions. -/

theorem inet_ntop_ok (sin_addr : BitVec 32) {mem : List Char} {size : Nat} (hsize : 16 ≤ size) (hmem : size ≤ mem.length) :
    inet_ntop sin_addr mem size =
      .ok (dotted (octets sin_addr) ++ terminator :: mem.drop ((dotted (octets sin_addr)).length + 1)) := by
  have hlen := length_dotted_octets sin_addr
  have hfits : (dotted (octets sin_addr)).length + 1 ≤ mem.length := by omega
  simp only [inet_ntop,if_pos (show (dotted (octets sin_addr)).length < size by omega),ensure_of _ hfits,ok_bind]

def quadString (sin_addr : BitVec 32) : CString := ⟨dotted (octets sin_addr),terminator_notMem_dotted _⟩

/-- The buffer of ToHostPort has room for fifteen characters. -/
theorem toHostPort_eq (m_SockAddr : SockAddrIn) (buf : Memory inetAddrStrLen) :
    toHostPort m_SockAddr buf = .ok ((renderingString m_SockAddr).take 15) := by
  have hhost := (quadString m_SockAddr.sin_addr).ofMemory_append
  obtain ⟨mem,hprint,-,hmem⟩ := @ofMemory_snprintf buf.val inetAddrStrLen (renderingString m_SockAddr) (by decide) buf.property.ge
  have hquad := @inet_ntop_ok m_SockAddr.sin_addr ("INVALID".toList ++ List.replicate 9 terminator) inetAddrStrLen
    (by decide) (by decide)
  simp only [quadString] at hhost
  simp only [renderingString,rendering] at hprint
  simp only [toHostPort,Sockets.toHostPort,hquad,ok_bind,hhost,hprint]
  exact hmem

/-- Behind a quad there is room for a port in the other buffer. -/
theorem print_port {quad port : List Char} (hquad : quad.length ≤ 15) (hport : port.length ≤ 5) :
    ∃ rest, snprintf (terminator :: (List.replicate 32 terminator).drop (quad.length + 1)) (32 - quad.length) (':' :: port) =
      .ok ((':' :: port) ++ terminator :: rest,(':' :: port).length) := by
  have hwhole : (':' :: port).take (32 - quad.length - 1) = ':' :: port := by
    apply List.take_of_length_le
    rw [List.length_cons]
    omega
  have hroom : (':' :: port).length < (terminator :: (List.replicate 32 terminator).drop (quad.length + 1)).length := by
    rw [List.length_cons,List.length_cons,List.length_drop,List.length_replicate]
    omega
  have hprint := @snprintf_ok (terminator :: (List.replicate 32 terminator).drop (quad.length + 1)) (32 - quad.length) (':' :: port)
    (by omega) (by rwa [hwhole])
  rw [hwhole] at hprint
  exact ⟨_,hprint⟩

theorem toIpPort_eq (m_SockAddr : SockAddrIn) : toIpPort m_SockAddr = .ok (renderingString m_SockAddr) := by
  have hhost := (quadString m_SockAddr.sin_addr).ofMemory_append
  have hquad := @inet_ntop_ok m_SockAddr.sin_addr (List.replicate 32 terminator) 32 (by decide) (by decide)
  obtain ⟨rest,hprint⟩ := print_port (length_dotted_octets m_SockAddr.sin_addr) (length_port m_SockAddr.sin_port)
  have hread := (renderingString m_SockAddr).ofMemory_append rest
  simp only [quadString] at hhost
  simp only [renderingString,rendering,List.append_assoc] at hread
  simp only [toIpPort,hquad,ok_bind,hhost,CString.strlen,List.drop_left,List.take_left,hprint,hread]
  rfl

theorem take_eq_iff (s : CString) (n : Nat) : s.take n = s ↔ s.strlen ≤ n := by
  constructor
  · intro h
    have hlen := congrArg CString.strlen h
    rw [CString.strlen,CString.take,List.length_take] at hlen
    exact min_eq_right_iff.mp hlen
  · exact CString.take_of_le

theorem octets_injective : Function.Injective octets := by
  intro v w h
  have hbytes : leBytes 4 v.toNat = leBytes 4 w.toNat := List.map_injective_iff.mpr (fun _ _ => UInt8.toNat.inj) h
  have hv := ofLeBytes_leBytes 4 v.toNat
  rw [hbytes,ofLeBytes_leBytes] at hv
  exact BitVec.eq_of_toNat_eq ((Nat.mod_eq_of_lt v.isLt).symm.trans (hv.symm.trans (Nat.mod_eq_of_lt w.isLt)))

theorem networkToHost16_injective : Function.Injective networkToHost16 := by
  intro v w h
  have hbytes : beBytes 2 v.toNat = beBytes 2 w.toNat := by
    rw [← memory_hostToNetwork16,← memory_hostToNetwork16]
    exact congrArg (memoryBytes 2) h
  have hv := ofBeBytes_beBytes 2 v.toNat
  rw [hbytes,ofBeBytes_beBytes] at hv
  exact BitVec.eq_of_toNat_eq ((Nat.mod_eq_of_lt v.isLt).symm.trans (hv.symm.trans (Nat.mod_eq_of_lt w.isLt)))

theorem rendering_injective : Function.Injective rendering := by
  intro a b h
  rw [rendering,rendering] at h
  have hdigits (n : Nat) : ':' ∉ Nat.toDigits 10 n := fun hmem =>
    absurd (fieldChar_toDigits hmem) (by decide)
  obtain ⟨hquad,-,hport⟩ := (List.append_cons_inj_of_notMem (colon_notMem_dotted _) (hdigits _)).mp h
  have haddr := octets_injective (dotted_injective (octets_ne_nil _) (octets_ne_nil _) hquad)
  have hport := networkToHost16_injective (BitVec.eq_of_toNat_eq (toDigits_injective hport))
  obtain ⟨sin_port,sin_addr⟩ := a
  obtain ⟨sin_port',sin_addr'⟩ := b
  exact SockAddrIn.mk.injEq .. ▸ ⟨hport,haddr⟩

/-- For every address and port: both renderings are the complete one exactly if the octets and
the port have eleven digits at most; among such addresses ToHostPort tells all apart, and ToIpPort always does. -/
theorem renderings_agree_iff (buf : SockAddrIn → Memory inetAddrStrLen) :
    (∀ a, toHostPort a (buf a) = .ok (renderingString a) ∧ toIpPort a = .ok (renderingString a) ↔ digitCount a ≤ 11) ∧
      Set.InjOn (fun a => toHostPort a (buf a)) {a | digitCount a ≤ 11} ∧ Function.Injective toIpPort := by
  have hagree (a : SockAddrIn) :
      toHostPort a (buf a) = .ok (renderingString a) ∧ toIpPort a = .ok (renderingString a) ↔ digitCount a ≤ 11 := by
    have hlen := length_rendering a
    rw [toHostPort_eq,toIpPort_eq,Except.ok.injEq,take_eq_iff]
    change (rendering a).length ≤ 15 ∧ _ ↔ _
    rw [hlen,and_iff_left rfl]
    omega
  refine ⟨hagree,?_,?_⟩
  · intro a ha b hb h
    dsimp only at h
    rw [((hagree a).mpr ha).1,((hagree b).mpr hb).1,Except.ok.injEq] at h
    exact rendering_injective (congrArg CString.chars h)
  · intro a b h
    rw [toIpPort_eq,toIpPort_eq,Except.ok.injEq] at h
    exact rendering_injective (congrArg CString.chars h)

/-- 192.168.100.200 at a port. -/
def atPort (usPort : BitVec 16) : SockAddrIn := ⟨hostToNetwork16 usPort,ofMemory 32 [192,168,100,200]⟩

def unused : Memory inetAddrStrLen := ⟨List.replicate 16 '?',List.length_replicate⟩

/-- Two ports of a host: ToHostPort says neither of them. -/
theorem host_port_truncated :
    (toHostPort (atPort 8080) unused).toOption.map CString.chars = some "192.168.100.200".toList ∧
      (toIpPort (atPort 8080)).toOption.map CString.chars = some "192.168.100.200:8080".toList ∧
      toHostPort (atPort 8080) unused = toHostPort (atPort 8081) unused ∧ atPort 8080 ≠ atPort 8081 ∧
      toHostPort (atPort 8080) unused ≠ toIpPort (atPort 8080) := by
  refine ⟨by decide +kernel,by decide +kernel,by decide +kernel,by decide +kernel,by decide +kernel⟩

/-! Names. -/

section Resolve

def afInet : Int := 2
def erange : Int := 34
def resolveBufSize : Nat := 4096

/-- hostent, with the in_addr at its h_addr. -/
structure HostEnt where
  h_addrtype : Int
  h_length : Int
  h_addr : BitVec 32
  deriving DecidableEq

/-- An entry of IPv4. -/
def HostEnt.IsInet (e : HostEnt) : Prop := e.h_addrtype = afInet ∧ e.h_length = 4

instance (e : HostEnt) : Decidable e.IsInet := inferInstanceAs (Decidable (e.h_addrtype = afInet ∧ e.h_length = 4))

/-- What gethostbyname_r returns and leaves in pHent. -/
structure Answer where
  nRet : Int
  pHent : Option HostEnt
  deriving DecidableEq

/-- The entry of a call that succeeds. -/
def Answer.found (answer : Answer) : Option HostEnt := if 0 = answer.nRet then answer.pHent else none

/-- The result of Resolve, with *pOutAddr and the calls of gethostbyname_r. -/
structure Resolved where
  bRet : Bool
  outAddr : SockAddrIn
  calls : Nat
  deriving DecidableEq

/-- What Resolve and ResolveSlow both make of an answer; none is for a buffer that was too small. -/
def received (answer : Answer) (outAddr : SockAddrIn) (calls : Nat) : Except Halt (Option Resolved) :=
  match answer.found with
  | some e => do
    ensure (.assertion "false") e.IsInet
    .ok (some ⟨true,{ outAddr with sin_addr := e.h_addr },calls⟩)
  | none => if erange = answer.nRet then .ok none else .ok (some ⟨false,outAddr,calls⟩)

def orElseRetry (retry : Except Halt Resolved) : Option Resolved → Except Halt Resolved
  | some result => .ok result
  | none => retry

-- The resolver answers by the calls before, the name and the size of the buffer.
variable (gethostbyname_r : Nat → CString → Nat → Answer) (pStrHostName : CString) (outAddr : SockAddrIn)

/-- The loop of ResolveSlow. Behind it the result is true. -/
def slowLoop : Nat → Nat → Nat → Except Halt Resolved
  | 0, size, calls => do
    ensure .outOfFuel (¬ size ≤ 16 * resolveBufSize)
    .ok ⟨true,outAddr,calls⟩
  | fuel+1, size, calls =>
    if size ≤ 16 * resolveBufSize then
      received (gethostbyname_r calls pStrHostName size) outAddr (calls + 1) >>=
        orElseRetry (slowLoop fuel (2 * size) (calls + 1))
    else .ok ⟨true,outAddr,calls⟩

def resolveSlow (calls : Nat) : Except Halt Resolved :=
  slowLoop gethostbyname_r pStrHostName outAddr 4 (2 * resolveBufSize) calls

/-- The pointers are not null. -/
def resolve : Except Halt Resolved :=
  received (gethostbyname_r 0 pStrHostName resolveBufSize) outAddr 1 >>=
    orElseRetry (resolveSlow gethostbyname_r pStrHostName outAddr 1)

/-- The answer to a call, whose buffer is twice that of the call before. -/
def answered (k : Nat) : Answer := gethostbyname_r k pStrHostName (resolveBufSize * 2 ^ k)

/-- Success is reported with an address that a call has found, and failure where none has. -/
def Reported (result : Resolved) : Prop :=
  if result.bRet then
    ∃ k < result.calls, ∃ e ∈ (answered gethostbyname_r pStrHostName k).found, e.IsInet ∧
      result.outAddr = { outAddr with sin_addr := e.h_addr }
  else (∀ k < result.calls, ∀ e ∈ (answered gethostbyname_r pStrHostName k).found, ¬ e.IsInet) ∧ result.outAddr = outAddr

/-- The buffer was not too small, and an entry that was found is of IPv4. -/
def Settled (answer : Answer) : Prop := answer.nRet ≠ erange ∧ ∀ e ∈ answer.found, e.IsInet

/-- Of the answers from one on to the fifth, the first that is no ERANGE settles it. -/
def SettledFrom (k : Nat) : Prop :=
  ∃ j < 5, k ≤ j ∧ (∀ i < j, k ≤ i → (answered gethostbyname_r pStrHostName i).nRet = erange) ∧
    Settled (answered gethostbyname_r pStrHostName j)

variable {gethostbyname_r pStrHostName outAddr}

theorem found_of_erange {answer : Answer} (h : answer.nRet = erange) : answer.found = none := by
  rw [Answer.found,if_neg (by rw [h]; decide)]

theorem settledFrom_of_erange {k : Nat} (h : (answered gethostbyname_r pStrHostName k).nRet = erange) :
    SettledFrom gethostbyname_r pStrHostName k ↔ SettledFrom gethostbyname_r pStrHostName (k + 1) := by
  constructor
  · rintro ⟨j,hj,hle,hbefore,hsettled⟩
    rcases hle.eq_or_lt with rfl | hlt
    · exact absurd h hsettled.1
    · exact ⟨j,hj,hlt,fun i hi hki => hbefore i hi (Nat.le_of_succ_le hki),hsettled⟩
  · rintro ⟨j,hj,hle,hbefore,hsettled⟩
    refine ⟨j,hj,Nat.le_of_succ_le hle,?_,hsettled⟩
    intro i hi hki
    rcases hki.eq_or_lt with rfl | hlt
    · exact h
    · exact hbefore i hi hlt

theorem settledFrom_of_other {k : Nat} (hk : k < 5) (h : (answered gethostbyname_r pStrHostName k).nRet ≠ erange) :
    SettledFrom gethostbyname_r pStrHostName k ↔ Settled (answered gethostbyname_r pStrHostName k) := by
  constructor
  · rintro ⟨j,hj,hle,hbefore,hsettled⟩
    rcases hle.eq_or_lt with rfl | hlt
    · exact hsettled
    · exact absurd (hbefore k hlt le_rfl) h
  · exact fun hsettled => ⟨k,hk,le_rfl,fun i hi hki => absurd hki hi.not_ge,hsettled⟩

/-- One call, with whatever comes behind it where its buffer is too small. -/
theorem received_reported {k : Nat} (hbefore : ∀ i < k, (answered gethostbyname_r pStrHostName i).nRet = erange)
    (hother : (answered gethostbyname_r pStrHostName k).nRet ≠ erange) (retry : Except Halt Resolved) :
    (∃ r, (received (answered gethostbyname_r pStrHostName k) outAddr (k + 1) >>= orElseRetry retry) = .ok r ∧
      Reported gethostbyname_r pStrHostName outAddr r) ↔ Settled (answered gethostbyname_r pStrHostName k) := by
  rw [received]
  cases hfound : (answered gethostbyname_r pStrHostName k).found with
  | some e =>
    have hsettled : Settled (answered gethostbyname_r pStrHostName k) ↔ e.IsInet := by
      rw [Settled,hfound]
      exact ⟨fun h => h.2 e rfl,fun h => ⟨hother,fun e' he => Option.some.inj he ▸ h⟩⟩
    rw [hsettled]
    by_cases hinet : e.IsInet
    · refine iff_of_true ⟨⟨true,{ outAddr with sin_addr := e.h_addr },k + 1⟩,?_,?_⟩ hinet
      · simp only [ensure_of _ hinet,ok_bind,orElseRetry]
      · exact ⟨k,Nat.lt_succ_self k,e,hfound,hinet,rfl⟩
    · refine iff_of_false ?_ hinet
      rintro ⟨r,hrun,-⟩
      simp only [ensure_not _ hinet] at hrun
      cases hrun
  | none =>
    have hsettled : Settled (answered gethostbyname_r pStrHostName k) := ⟨hother,by rw [hfound]; exact fun e he => by cases he⟩
    refine iff_of_true ⟨⟨false,outAddr,k + 1⟩,?_,?_,rfl⟩ hsettled
    · simp only [if_neg (Ne.symm hother),ok_bind,orElseRetry]
    · intro i hi e he
      rcases (Nat.lt_succ_iff.mp hi).eq_or_lt with rfl | hlt
      · cases hfound.symm.trans he
      · cases (found_of_erange (hbefore i hlt)).symm.trans he

theorem received_erange {k : Nat} (h : (answered gethostbyname_r pStrHostName k).nRet = erange) (retry : Except Halt Resolved) :
    (received (answered gethostbyname_r pStrHostName k) outAddr (k + 1) >>= orElseRetry retry) = retry := by
  rw [received,found_of_erange h]
  simp only [if_pos h.symm,ok_bind,orElseRetry]

/-- Behind the largest buffer the loop reports a success that no call had. -/
theorem not_reported_end {k : Nat} (hbefore : ∀ i < k, (answered gethostbyname_r pStrHostName i).nRet = erange) :
    ¬ Reported gethostbyname_r pStrHostName outAddr ⟨true,outAddr,k⟩ := by
  rintro ⟨i,hi,e,he,-⟩
  cases (found_of_erange (hbefore i hi)).symm.trans he

theorem slowLoop_iff {fuel k : Nat} (hk : k + fuel = 5)
    (hbefore : ∀ i < k, (answered gethostbyname_r pStrHostName i).nRet = erange) :
    (∃ r, slowLoop gethostbyname_r pStrHostName outAddr fuel (resolveBufSize * 2 ^ k) k = .ok r ∧
      Reported gethostbyname_r pStrHostName outAddr r) ↔ SettledFrom gethostbyname_r pStrHostName k := by
  induction fuel generalizing k with
  | zero =>
    obtain rfl : k = 5 := hk
    refine iff_of_false ?_ ?_
    · rintro ⟨r,hrun,hreported⟩
      obtain ⟨-,-,hrun⟩ := (bind_ok_iff _ _ _).mp hrun
      cases hrun
      exact not_reported_end hbefore hreported
    · rintro ⟨j,hj,hle,-⟩
      omega
  | succ fuel ih =>
    have hlt : k < 5 := by omega
    have hsize : resolveBufSize * 2 ^ k ≤ 16 * resolveBufSize := by
      rw [mul_comm]
      exact Nat.mul_le_mul_right _ (Nat.pow_le_pow_right (by decide) (Nat.le_of_lt_succ hlt))
    have hdouble : 2 * (resolveBufSize * 2 ^ k) = resolveBufSize * 2 ^ (k + 1) := by
      rw [pow_succ]
      ring
    rw [slowLoop,if_pos hsize,hdouble]
    change (∃ r, (received (answered gethostbyname_r pStrHostName k) outAddr (k + 1) >>= _) = _ ∧ _) ↔ _
    by_cases h : (answered gethostbyname_r pStrHostName k).nRet = erange
    · rw [received_erange h,settledFrom_of_erange h]
      refine ih (by omega) ?_
      intro i hi
      rcases (Nat.lt_succ_iff.mp hi).eq_or_lt with rfl | hlt'
      · exact h
      · exact hbefore i hlt'
    · rw [received_reported hbefore h,settledFrom_of_other hlt h]

/-- For every name and all answers: Resolve ends and reports success exactly with an address that
it stored, exactly if one of the five calls is not told that its buffer is too small, and the first such call finds nothing but IPv4. -/
theorem resolve_reported_iff (gethostbyname_r : Nat → CString → Nat → Answer) (pStrHostName : CString) (outAddr : SockAddrIn) :
    (∃ r, resolve gethostbyname_r pStrHostName outAddr = .ok r ∧ Reported gethostbyname_r pStrHostName outAddr r) ↔
      ∃ j < 5, (∀ i < j, (answered gethostbyname_r pStrHostName i).nRet = erange) ∧
        Settled (answered gethostbyname_r pStrHostName j) := by
  have hresolve : resolve gethostbyname_r pStrHostName outAddr =
      slowLoop gethostbyname_r pStrHostName outAddr 5 (resolveBufSize * 2 ^ 0) 0 := rfl
  rw [hresolve,slowLoop_iff rfl fun i hi => absurd hi (Nat.not_lt_zero i),SettledFrom]
  simp only [Nat.zero_le,true_and,forall_const]

/-- A name whose answers fit no buffer that Resolve tries: it reports a success and leaves the address unset. -/
theorem resolve_false_success :
    let full : Nat → CString → Nat → Answer := fun _ _ _ => ⟨erange,none⟩
    let name : CString := ⟨"example".toList,by decide⟩
    resolve full name ⟨0,0⟩ = .ok ⟨true,⟨0,0⟩,5⟩ ∧ ¬ ∃ r, resolve full name ⟨0,0⟩ = .ok r ∧ Reported full name ⟨0,0⟩ r := by
  intro full name
  have hrun : resolve full name ⟨0,0⟩ = .ok ⟨true,⟨0,0⟩,5⟩ := by decide
  refine ⟨hrun,?_⟩
  rintro ⟨r,hr,hreported⟩
  cases hrun.symm.trans hr
  exact not_reported_end (fun _ _ => rfl) hreported

end Resolve

end InetAddress
end LinuxServer.Reactor
