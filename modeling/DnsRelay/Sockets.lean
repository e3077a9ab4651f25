import DnsRelay.Session
set_option autoImplicit false

/-!
The datagram socket of sock_posix.c: one IPv6 socket for both address families,
so that an IPv4 host shows as a mapped address when it sends and is addressed
as an IPv4 host when it is sent to.
-/

namespace DnsRelay

/-- The address and the port as `recvfrom` gives them, in network order. -/
structure SockaddrIn6 where
  sin6Addr : Bytes
  sin6Port : UInt16
  sized : sin6Addr.length = 16

def mappedPrefix : Bytes := List.replicate 10 0 ++ [255,255]

/-- IN6_IS_ADDR_V4MAPPED -/
def SockaddrIn6.v4Mapped (src : SockaddrIn6) : Bool :=
  decide (src.sin6Addr.take 12 = mappedPrefix)

def SockaddrIn6.source (src : SockaddrIn6) : NetEnd :=
  if src.v4Mapped then ⟨src.sin6Addr.drop 12,.ipv4,src.sin6Port.toNat⟩
  else ⟨src.sin6Addr,.ipv6,src.sin6Port.toNat⟩

inductive Sockaddr where
  | inet (sinAddr : Bytes) (sinPort : UInt16)
  | inet6 (sin6Addr : Bytes) (sin6Port : UInt16)
  deriving DecidableEq

/-- `socket_send` fills in the structure of the destination's family; the port is cut to 16 bits. -/
def socketDest (dest : NetEnd) : Sockaddr :=
  match dest.version with
  | .ipv4 => .inet dest.addr (UInt16.ofInt dest.port)
  | .ipv6 => .inet6 dest.addr (UInt16.ofInt dest.port)

/-- The host and port that an address stands for on a socket for both families. -/
def Sockaddr.endpoint : Sockaddr → Bytes × UInt16
  | .inet sinAddr sinPort => (mappedPrefix ++ sinAddr,sinPort)
  | .inet6 sin6Addr sin6Port => (sin6Addr,sin6Port)

theorem ofInt_toNat (port : UInt16) : UInt16.ofInt (port.toNat : Int) = port := by
  have hport := port.toNat_lt
  apply UInt16.toNat_inj.mp
  rw [UInt16.ofInt,UInt16.toNat_ofNat']
  omega

theorem endpoint_source (src : SockaddrIn6) :
    (socketDest src.source).endpoint = (src.sin6Addr,src.sin6Port) := by
  unfold SockaddrIn6.source
  split
  · rename_i hmapped
    have hprefix : src.sin6Addr.take 12 = mappedPrefix := of_decide_eq_true hmapped
    simp only [socketDest,Sockaddr.endpoint,ofInt_toNat,← hprefix,List.take_append_drop]
  · simp only [socketDest,Sockaddr.endpoint,ofInt_toNat]

/-- What one call of `recvfrom` gives: a datagram and its sender, nothing yet, or an error. -/
inductive Recvfrom where
  | datagram (payload : Bytes) (src : SockaddrIn6)
  | wouldBlock
  | failed

/-- The length received, 0 if there is no data and -1 on an error; the buffer, whose rest keeps
what was in it; and the source. A datagram is cut to the size of the buffer. -/
def socketRecvNowait (buf : Bytes) (source : NetEnd) : Recvfrom → Int × Bytes × NetEnd
  | .datagram payload src =>
      let data := payload.take buf.length
      (data.length,data ++ buf.drop data.length,src.source)
  | .wouldBlock => (0,buf,source)
  | .failed => (-1,buf,source)

theorem length_socketRecvNowait (buf : Bytes) (source : NetEnd) (r : Recvfrom) :
    (socketRecvNowait buf source r).2.1.length = buf.length := by
  cases r with
  | datagram payload src =>
    simp only [socketRecvNowait,List.length_append,List.length_take,List.length_drop]
    omega
  | wouldBlock => rfl
  | failed => rfl

end DnsRelay
