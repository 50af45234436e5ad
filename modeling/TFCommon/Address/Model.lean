import TFCommon.Lib.Words

/-! The prefix helpers of `base/address.cc` and `base/address_util.cc`, and the passage between addresses and
64-bit words. An IPv4 address is the value of `to_ulong`, an IPv6 address its 16 bytes; words are stored with the
least significant byte first. `none` is a step whose result the language does not define. -/
namespace TFCommon.Address
open Words

abbrev Ip4Address := BitVec 32

abbrev Ip6Address := Vector (BitVec 8) 16

/-- `boost::asio::ip::address_v6`, whose equality compares both parts. -/
@[ext] structure AddressV6 where
  bytes : Ip6Address
  scopeId : Nat := 0
deriving DecidableEq

inductive IpAddress where
  | v4 (addr : Ip4Address)
  | v6 (addr : Ip6Address)
deriving DecidableEq

abbrev Shift := BitVec 32 → Int → Option (BitVec 32)

/-- The shift of the language: the count is below the width, or the result is undefined. -/
def shl : Shift := fun x count => if 0 ≤ count ∧ count < 32 then some (x <<< count.toNat) else none

/-- The shift of a machine that takes the count modulo the width. -/
def shlModular : Shift := fun x count => some (x <<< (count % 32).toNat)

section ip4
variable (shift : Shift)

def getIp4SubnetAddress (addr : Ip4Address) (plen : Nat) : Option Ip4Address :=
  if plen = 0 then some 0
  else do return addr &&& (← shift 0xFFFFFFFF#32 (32 - plen))

def isIp4SubnetMember (ip prefixIp : Ip4Address) (plen : Nat) : Option Bool := do
  let subnet ← getIp4SubnetAddress shift prefixIp plen
  let mask ← shift 0xFFFFFFFF#32 (32 - plen)
  return (subnet ||| ~~~mask) == (ip ||| ~~~mask)

def getIp4SubnetBroadcastAddress (addr : Ip4Address) (plen : Nat) : Option Ip4Address := do
  return addr ||| ~~~(← shift 0xFFFFFFFF#32 (32 - plen))

end ip4

def htons (x : BitVec 16) : BitVec 16 := byteSwap 2 x

def ntohs (x : BitVec 16) : BitVec 16 := byteSwap 2 x

def htonl (x : BitVec 32) : BitVec 32 := byteSwap 4 x

def ntohl (x : BitVec 32) : BitVec 32 := byteSwap 4 x

def htobe64 (x : BitVec 64) : BitVec 64 := byteSwap 8 x

def maskWord (remainMask : Nat) (word : BitVec 16) : BitVec 16 :=
  match remainMask with
  | 0 => 0
  | 1 => word &&& 0x8000#16
  | 2 => word &&& 0xc000#16
  | 3 => word &&& 0xe000#16
  | 4 => word &&& 0xf000#16
  | 5 => word &&& 0xf800#16
  | 6 => word &&& 0xfc00#16
  | 7 => word &&& 0xfe00#16
  | 8 => word &&& 0xff00#16
  | 9 => word &&& 0xff80#16
  | 10 => word &&& 0xffc0#16
  | 11 => word &&& 0xffe0#16
  | 12 => word &&& 0xfff0#16
  | 13 => word &&& 0xfff8#16
  | 14 => word &&& 0xfffc#16
  | 15 => word &&& 0xfffe#16
  | _ => word

/-- The eight words in host order of the bytes that `inet_pton` has stored. -/
def loadWords (addr : Ip6Address) : Vector (BitVec 16) 8 :=
  let ip6 : Vector (BitVec 16) 8 := Vector.ofFn fun i => ofBytes 2 #v[addr[2 * i.val], addr[2 * i.val + 1]]
  ip6.map ntohs

def words (addr : Ip6Address) : List Nat :=
  List.ofFn fun i : Fin 8 => 256 * addr[2 * i.val].toNat + addr[2 * i.val + 1].toNat

/-- The bits from `plen` on are cleared; `none` is a write past the end of the words. -/
def clearWords (inIp6 : Vector (BitVec 16) 8) (plen : Nat) : Option (Vector (BitVec 16) 8) :=
  let index := plen / 16
  if inside : index < 8 then
    let masked := inIp6.set index (maskWord (plen % 16) inIp6[index])
    some (masked.mapIdx fun i word => if index + 1 ≤ i then 0 else word)
  else none

def storeWords (inIp6 : Vector (BitVec 16) 8) : Ip6Address :=
  let ip6 := inIp6.map htons
  Vector.ofFn fun i => (toBytes 2 ip6[i.val / 2])[i.val % 2]

section ip6
-- what `inet_pton` stores for the text of an address; `none` if it refuses the text
variable (ptonText : AddressV6 → Option Ip6Address)

/-- The text of an address is read back, unless it ends in a scope id, which `inet_pton` does not know. -/
def ReadsBack : Prop := ∀ addr, ptonText addr = if addr.scopeId = 0 then some addr.bytes else none

/-- The answer of `inet_pton` is not looked at: where it refuses the text, the words are never set. -/
def getIp6SubnetAddress (addr : AddressV6) (plen : Nat) : Option AddressV6 :=
  if plen = 0 then some ⟨Vector.replicate 16 0, 0⟩
  else if plen = 128 then some addr
  else do return ⟨storeWords (← clearWords (loadWords (← ptonText addr)) plen), 0⟩

def isIp6SubnetMember (ip subnet : AddressV6) (plen : Nat) : Option Bool := do
  let mask ← getIp6SubnetAddress ptonText subnet plen
  let ip1 ← getIp6SubnetAddress ptonText ip plen
  return ip1 == mask

end ip6

def assemble (b0 b1 b2 b3 : BitVec 8) : BitVec 32 :=
  ((b0.setWidth 32 <<< 24) &&& 0xFF000000#32) ||| ((b1.setWidth 32 <<< 16) &&& 0x00FF0000#32) |||
    ((b2.setWidth 32 <<< 8) &&& 0x0000FF00#32) ||| (b3.setWidth 32 &&& 0x000000FF#32)

def u64ArrayTurn (b : Ip6Address) (state : Vector (BitVec 64) 2 × Fin 2) (i : Fin 4) : Vector (BitVec 64) 2 × Fin 2 :=
  let (arr, k) := state
  let j := 4 * i.val
  let ip : BitVec 64 := (assemble b[j] b[j + 1] b[j + 2] b[j + 3]).setWidth 64
  let k := if 2 ≤ i.val then 1 else k
  if i.val % 2 = 1 then (arr.set k (arr[k] ||| (ip &&& 0x00000000FFFFFFFF#64)), k)
  else (arr.set k ((ip <<< 32) &&& 0xFFFFFFFF00000000#64), k)

def u64ArrayLoop (b : Ip6Address) (arr : Vector (BitVec 64) 2) : Vector (BitVec 64) 2 :=
  ((List.finRange 4).foldl (u64ArrayTurn b) (arr, 0)).1

def ip6AddressToU64Array (addr : Ip6Address) (arr : Vector (BitVec 64) 2) (size : Int) : Vector (BitVec 64) 2 :=
  if size ≠ 2 then arr
  else
    let arr := u64ArrayLoop addr arr
    #v[htobe64 arr[0], htobe64 arr[1]]

def wordsOf (data : Vector (BitVec 64) 2) : IpAddress → BitVec 64 × BitVec 64
  | .v4 addr => (0, (htonl addr).setWidth 64)
  | .v6 addr =>
    let data := ip6AddressToU64Array addr data 2
    (data[0], data[1])

structure U64Words where
  sipU : BitVec 64
  sipL : BitVec 64
  dipU : BitVec 64
  dipL : BitVec 64
deriving DecidableEq

/-- `IpToU64`; the arrays are what its local variables hold before they are set. -/
def ipToU64 (sipData dipData : Vector (BitVec 64) 2) (sip dip : IpAddress) : U64Words :=
  let (sipU, sipL) := wordsOf sipData sip
  let (dipU, dipL) := wordsOf dipData dip
  ⟨sipU, sipL, dipU, dipL⟩

def u64ToIpv6 (upper lower : BitVec 64) : IpAddress := .v6 (toBytes 8 lower ++ toBytes 8 upper)

inductive Family where
  | unspec | inet | inet6 | inetvpn | inet6vpn | rtarget | evpn | ermvpn | mvpn | inetmpls
deriving DecidableEq

def u64ToIp (words : U64Words) (family : Family) : IpAddress × IpAddress :=
  if family = .inet then
    (.v4 (ntohl ((words.sipL &&& 0xFFFFFFFF#64).setWidth 32)), .v4 (ntohl ((words.dipL &&& 0xFFFFFFFF#64).setWidth 32)))
  else (u64ToIpv6 words.sipU words.sipL, u64ToIpv6 words.dipU words.dipL)

end TFCommon.Address
