import Mathlib.Tactic.IntervalCases
import TFCommon.Address.Model

/-! The prefix helpers against the bits of the addresses, the first bit being the most significant one. -/
namespace TFCommon.Address
open Words

section bits
variable {L plen : Nat} {rest : Bool} {a b r s : Fin L → Bool}

def Keeps (plen : Nat) (rest : Bool) (a r : Fin L → Bool) : Prop := ∀ n, r n = if n.val < plen then a n else rest

def Agree (plen : Nat) (a b : Fin L → Bool) : Prop := ∀ n, n.val < plen → a n = b n

theorem Keeps.eq_iff (first : Keeps plen rest a r) (second : Keeps plen rest b s) : r = s ↔ Agree plen a b := by
  constructor
  · intro same n inside
    have here := congrFun same n
    rw [first n, second n, if_pos inside, if_pos inside] at here
    exact here
  · intro agree
    funext n
    rw [first n, second n]
    split
    · rename_i inside
      exact agree n inside
    · rfl

theorem Keeps.trans {rest' : Bool} (first : Keeps plen rest' a r) (second : Keeps plen rest r s) : Keeps plen rest a s := by
  intro n
  rw [second n, first n]
  split
  · rfl
  · rfl

end bits

def Ip4Address.bit (addr : Ip4Address) (n : Fin 32) : Bool := addr.getMsbD n

def Ip6Address.bit (addr : Ip6Address) (n : Fin 128) : Bool := (addr.get ⟨n / 8, by omega⟩).getMsbD (n % 8)

variable {plen : Nat}

theorem ip4_eq_of_bits {a b : Ip4Address} (same : Ip4Address.bit a = Ip4Address.bit b) : a = b := by
  apply BitVec.eq_of_getMsbD_eq
  intro n inside
  exact congrFun same ⟨n, inside⟩

theorem ip6_eq_of_bits {a b : Ip6Address} (same : Ip6Address.bit a = Ip6Address.bit b) : a = b := by
  apply Vector.ext
  intro i inside
  apply BitVec.eq_of_getMsbD_eq
  intro m bit
  have here := congrFun same ⟨8 * i + m, by omega⟩
  have quot : (8 * i + m) / 8 = i := by omega
  have remainder : (8 * i + m) % 8 = m := by omega
  simpa [Ip6Address.bit, quot, remainder, Vector.get] using here

section ip4

def netmask (plen : Nat) : BitVec 32 := BitVec.allOnes 32 <<< (32 - plen)

theorem shl_netmask (positive : plen ≠ 0) (short : plen ≤ 32) : shl 0xFFFFFFFF#32 (32 - plen) = some (netmask plen) := by
  have count : ((32 : Int) - plen).toNat = 32 - plen := by omega
  rw [shl, if_pos (by omega), count]
  rfl

theorem netmask_bit (short : plen ≤ 32) (n : Fin 32) : (netmask plen).getMsbD n = decide (n.val < plen) := by
  rw [netmask, BitVec.getMsbD_shiftLeft, BitVec.getMsbD_allOnes]
  exact decide_eq_decide.mpr (by omega)

theorem and_netmask (addr : Ip4Address) (short : plen ≤ 32) : Keeps plen false (Ip4Address.bit addr) (Ip4Address.bit (addr &&& netmask plen)) := by
  intro n
  rw [Ip4Address.bit, BitVec.getMsbD_and, netmask_bit short]
  by_cases inside : n.val < plen <;> simp [inside, Ip4Address.bit]

theorem or_netmask (addr : Ip4Address) (short : plen ≤ 32) : Keeps plen true (Ip4Address.bit addr) (Ip4Address.bit (addr ||| ~~~netmask plen)) := by
  intro n
  rw [Ip4Address.bit, BitVec.getMsbD_or, BitVec.getMsbD_not, netmask_bit short]
  by_cases inside : n.val < plen <;> simp [inside, Ip4Address.bit]

theorem getIp4SubnetAddress_spec (addr : Ip4Address) (short : plen ≤ 32) :
    ∃ r, getIp4SubnetAddress shl addr plen = some r ∧ Keeps plen false (Ip4Address.bit addr) (Ip4Address.bit r) := by
  by_cases zero : plen = 0
  · refine ⟨0, by rw [getIp4SubnetAddress, if_pos zero], fun n => ?_⟩
    simp [Ip4Address.bit, zero]
  · refine ⟨addr &&& netmask plen, ?_, and_netmask addr short⟩
    rw [getIp4SubnetAddress, if_neg zero, shl_netmask zero short]
    rfl

theorem getIp4SubnetBroadcastAddress_spec (addr : Ip4Address) (positive : plen ≠ 0) (short : plen ≤ 32) :
    ∃ r, getIp4SubnetBroadcastAddress shl addr plen = some r ∧ Keeps plen true (Ip4Address.bit addr) (Ip4Address.bit r) := by
  refine ⟨addr ||| ~~~netmask plen, ?_, or_netmask addr short⟩
  rw [getIp4SubnetBroadcastAddress, shl_netmask positive short]
  rfl

theorem isIp4SubnetMember_spec (ip prefixIp : Ip4Address) (positive : plen ≠ 0) (short : plen ≤ 32) :
    ∃ r, isIp4SubnetMember shl ip prefixIp plen = some r ∧
      (r = true ↔ Agree plen (Ip4Address.bit ip) (Ip4Address.bit prefixIp)) := by
  obtain ⟨subnet, cut, keeps⟩ := getIp4SubnetAddress_spec prefixIp short
  refine ⟨(subnet ||| ~~~netmask plen) == (ip ||| ~~~netmask plen), ?_, ?_⟩
  · rw [isIp4SubnetMember, cut, shl_netmask positive short]
    rfl
  · have same := (or_netmask ip short).eq_iff (keeps.trans (or_netmask subnet short))
    rw [beq_iff_eq, ← same]
    exact ⟨fun equal => congrArg _ equal.symm, fun equal => (ip4_eq_of_bits equal).symm⟩

end ip4

section ip6
variable {word : BitVec 16} {c q j : Nat}

theorem maskWord_eq (inside : plen < 16) (word : BitVec 16) : maskWord plen word = word &&& ~~~(BitVec.allOnes 16 >>> plen) := by
  interval_cases plen
  · exact BitVec.and_zero.symm
  all_goals rfl

theorem maskWord_bit (inside : plen < 16) (bit : j < 16) :
    (maskWord plen word).getMsbD j = if j < plen then word.getMsbD j else false := by
  rw [maskWord_eq inside, BitVec.getMsbD_and, BitVec.getMsbD_not, BitVec.getMsbD_ushiftRight, BitVec.getMsbD_allOnes]
  by_cases kept : j < plen
  · simp [bit, kept]
  · have less : j - plen < 16 := by omega
    simp [kept, less]

theorem htons_byte (word : BitVec 16) (half : c < 2) (bit : q < 8) :
    (toBytes 2 (htons word))[c].getMsbD q = word.getMsbD (8 * c + q) := by
  have inside : 8 * c + q < 16 := by omega
  have position : 8 * (2 - 1 - c) + (8 - 1 - q) = 16 - 1 - (8 * c + q) := by omega
  rw [BitVec.getMsbD_eq_getLsbD, BitVec.getMsbD_eq_getLsbD, htons, getLsbD_toBytes _ half (by omega),
    getLsbD_byteSwap _ half (by omega), position]
  simp [bit, inside]

theorem ntohs_bit (bytes : Vector (BitVec 8) 2) (half : c < 2) (bit : q < 8) :
    (ntohs (ofBytes 2 bytes)).getMsbD (8 * c + q) = bytes[c].getMsbD q := by
  rw [← htons_byte _ half bit]
  simp [htons, ntohs]

theorem loadWords_bit (addr : Ip6Address) (inside : j < 8) (half : c < 2) (bit : q < 8) :
    (loadWords addr)[j].getMsbD (8 * c + q) = addr[2 * j + c].getMsbD q := by
  rw [loadWords, Vector.getElem_map, Vector.getElem_ofFn, ntohs_bit _ half bit]
  interval_cases c <;> rfl

theorem storeWords_bit (words : Vector (BitVec 16) 8) (inside : j < 8) (half : c < 2) (bit : q < 8) :
    (storeWords words)[2 * j + c].getMsbD q = words[j].getMsbD (8 * c + q) := by
  have word : (2 * j + c) / 2 = j := by omega
  have byte : (2 * j + c) % 2 = c := by omega
  rw [storeWords, Vector.getElem_ofFn]
  simp only [word, byte, Vector.getElem_map]
  exact htons_byte _ half bit

theorem clearWords_bit (words : Vector (BitVec 16) 8) (short : plen < 128) :
    ∃ cleared, clearWords words plen = some cleared ∧ ∀ j (inside : j < 8) m, m < 16 →
      cleared[j].getMsbD m = if 16 * j + m < plen then words[j].getMsbD m else false := by
  have index : plen / 16 < 8 := by omega
  refine ⟨_, dif_pos index, fun j inside m bit => ?_⟩
  have less := Nat.mod_lt plen (show 0 < 16 by decide)
  rw [Vector.getElem_mapIdx]
  -- the words behind that of the cut, that word, and the words before it
  rcases Nat.lt_trichotomy (plen / 16) j with behind | rfl | before_
  · rw [if_pos (by omega), if_neg (by omega)]
    simp
  · rw [if_neg (by omega), Vector.getElem_set_self, maskWord_bit less bit]
    by_cases kept : m < plen % 16
    · rw [if_pos kept, if_pos (by omega)]
    · rw [if_neg kept, if_neg (by omega)]
  · rw [if_neg (by omega), Vector.getElem_set_ne _ _ (by omega), if_pos (by omega)]

theorem ip6_bit (addr : Ip6Address) (n : Fin 128) :
    Ip6Address.bit addr n = addr[2 * (n.val / 16) + n.val / 8 % 2].getMsbD (n.val % 8) := by
  have byte : n.val / 8 = 2 * (n.val / 16) + n.val / 8 % 2 := by omega
  simp only [← byte]
  rfl

variable {ptonText : AddressV6 → Option Ip6Address} {addr : AddressV6} (reads : ReadsBack ptonText)
include reads

theorem getIp6SubnetAddress_spec (short : plen ≤ 128) (known : plen = 0 ∨ plen = 128 ∨ addr.scopeId = 0) :
    ∃ r, getIp6SubnetAddress ptonText addr plen = some r ∧
      Keeps plen false (Ip6Address.bit addr.bytes) (Ip6Address.bit r.bytes) ∧
      r.scopeId = if plen = 128 then addr.scopeId else 0 := by
  by_cases zero : plen = 0
  · refine ⟨⟨Vector.replicate 16 0, 0⟩, by rw [getIp6SubnetAddress, if_pos zero], fun n => ?_, by simp [zero]⟩
    simp [Ip6Address.bit, zero, Vector.get]
  · by_cases full : plen = 128
    · refine ⟨addr, by rw [getIp6SubnetAddress, if_neg zero, if_pos full], fun n => ?_, by rw [if_pos full]⟩
      rw [if_pos (by omega)]
    · obtain ⟨cleared, ran, bits⟩ := clearWords_bit (loadWords addr.bytes) (show plen < 128 by omega)
      refine ⟨⟨storeWords cleared, 0⟩, ?_, fun n => ?_, by rw [if_neg full]⟩
      · rw [getIp6SubnetAddress, if_neg zero, if_neg full, reads addr, if_pos (by omega)]
        simp only [Option.bind_eq_bind, Option.bind_some, ran, pure]
      · have word : n.val / 16 < 8 := by omega
        have byte : n.val / 8 % 2 < 2 := Nat.mod_lt _ (by decide)
        have bit : n.val % 8 < 8 := Nat.mod_lt _ (by decide)
        have position : 16 * (n.val / 16) + (8 * (n.val / 8 % 2) + n.val % 8) = n.val := by omega
        rw [ip6_bit, ip6_bit, storeWords_bit _ word byte bit, bits _ word _ (by omega), loadWords_bit _ word byte bit, position]

theorem getIp6SubnetAddress_scoped (some_ : plen ≠ 0) (part : plen ≠ 128) (zoned : addr.scopeId ≠ 0) :
    getIp6SubnetAddress ptonText addr plen = none := by
  rw [getIp6SubnetAddress, if_neg some_, if_neg part, reads addr, if_neg zoned]
  rfl

/-- The comparison of the whole addresses takes their scope ids in. -/
theorem isIp6SubnetMember_spec (ip subnet : AddressV6) (short : plen ≤ 128)
    (known : plen = 0 ∨ plen = 128 ∨ ip.scopeId = 0) (known' : plen = 0 ∨ plen = 128 ∨ subnet.scopeId = 0) :
    ∃ r, isIp6SubnetMember ptonText ip subnet plen = some r ∧
      (r = true ↔ Agree plen (Ip6Address.bit ip.bytes) (Ip6Address.bit subnet.bytes) ∧
        (plen = 128 → ip.scopeId = subnet.scopeId)) := by
  obtain ⟨mask, cut, keeps, scope⟩ := getIp6SubnetAddress_spec reads short known'
  obtain ⟨ip1, cut1, keeps1, scope1⟩ := getIp6SubnetAddress_spec reads short known
  refine ⟨ip1 == mask, ?_, ?_⟩
  · rw [isIp6SubnetMember, cut, cut1]
    rfl
  · have whole : ip1 = mask ↔ ip1.bytes = mask.bytes ∧ ip1.scopeId = mask.scopeId := AddressV6.ext_iff
    have bits : Ip6Address.bit ip1.bytes = Ip6Address.bit mask.bytes ↔ ip1.bytes = mask.bytes :=
      ⟨ip6_eq_of_bits, congrArg _⟩
    rw [beq_iff_eq, whole, ← bits, keeps1.eq_iff keeps, scope, scope1]
    by_cases full : plen = 128 <;> simp [full]

end ip6

structure Ip4Arithmetic (shift : Shift) (ip addr : Ip4Address) (plen : Nat) : Prop where
  subnet : ∃ r, getIp4SubnetAddress shift addr plen = some r ∧ Keeps plen false (Ip4Address.bit addr) (Ip4Address.bit r)
  broadcast : ∃ r, getIp4SubnetBroadcastAddress shift addr plen = some r ∧
    Keeps plen true (Ip4Address.bit addr) (Ip4Address.bit r)
  member : ∃ r, isIp4SubnetMember shift ip addr plen = some r ∧
    (r = true ↔ Agree plen (Ip4Address.bit ip) (Ip4Address.bit addr))

structure Ip6Arithmetic (ptonText : AddressV6 → Option Ip6Address) (ip addr : AddressV6) (plen : Nat) : Prop where
  subnet : ∃ r, getIp6SubnetAddress ptonText addr plen = some r ∧
    Keeps plen false (Ip6Address.bit addr.bytes) (Ip6Address.bit r.bytes)
  member : ∃ r, isIp6SubnetMember ptonText ip addr plen = some r ∧
    (r = true ↔ Agree plen (Ip6Address.bit ip.bytes) (Ip6Address.bit addr.bytes))

/-- Neither address has a scope id, or the addresses are not converted: nothing of them is kept, or all of them, and equal
bytes have equal scope ids. -/
def ScopesHarmless (ip addr : AddressV6) (plen : Nat) : Prop :=
  ip.scopeId = 0 ∧ addr.scopeId = 0 ∨ plen = 0 ∨ plen = 128 ∧ (ip.bytes = addr.bytes → ip.scopeId = addr.scopeId)

theorem ip6_arithmetic_iff {ptonText : AddressV6 → Option Ip6Address} (reads : ReadsBack ptonText) (ip addr : AddressV6)
    (short : plen ≤ 128) : Ip6Arithmetic ptonText ip addr plen ↔ ScopesHarmless ip addr plen := by
  constructor
  · intro right
    obtain ⟨_, cut, _⟩ := right.subnet
    obtain ⟨r, answer, exact_⟩ := right.member
    by_cases zero : plen = 0
    · exact .inr (.inl zero)
    by_cases full : plen = 128
    · refine .inr (.inr ⟨full, fun same => ?_⟩)
      obtain ⟨r', answer', member⟩ := isIp6SubnetMember_spec reads ip addr short (.inr (.inl full)) (.inr (.inl full))
      obtain rfl : r = r' := Option.some.inj (answer.symm.trans answer')
      exact (member.mp (exact_.mpr fun n _ => by rw [same])).2 full
    · have plain : ∀ {a : AddressV6}, getIp6SubnetAddress ptonText a plen ≠ none → a.scopeId = 0 := fun defined =>
        Classical.not_not.mp fun zoned => defined (getIp6SubnetAddress_scoped reads zero full zoned)
      refine .inl ⟨plain fun undefined => ?_, plain (by rw [cut]; exact Option.some_ne_none _)⟩
      rw [isIp6SubnetMember, cut, undefined] at answer
      cases answer
  · intro harmless
    have known : ∀ a, a = ip ∨ a = addr → plen = 0 ∨ plen = 128 ∨ a.scopeId = 0 := by
      rintro a (rfl | rfl) <;> rcases harmless with ⟨_, _⟩ | zero | ⟨full, _⟩ <;> simp [*]
    obtain ⟨r, cut, keeps, _⟩ := getIp6SubnetAddress_spec reads short (known addr (.inr rfl))
    obtain ⟨r', answer, member⟩ := isIp6SubnetMember_spec reads ip addr short (known ip (.inl rfl)) (known addr (.inr rfl))
    refine ⟨⟨r, cut, keeps⟩, r', answer, member.trans (and_iff_left_of_imp fun agree full => ?_)⟩
    rcases harmless with ⟨none_, none'⟩ | zero | ⟨_, same⟩
    · rw [none_, none']
    · omega
    · exact same (ip6_eq_of_bits (funext fun n => agree n (by omega)))

/-- `GetIp4SubnetAddress` is right at every length; the other IPv4 helpers shift by the width of the word at length 0 and
are right exactly at the other lengths. The IPv6 helpers are right at every length unless a scope id gets in the way. -/
theorem prefix_arithmetic_iff (ptonText : AddressV6 → Option Ip6Address) (reads : ReadsBack ptonText) (ip addr : Ip4Address)
    (plen : Nat) (short : plen ≤ 32) (ip6 addr6 : AddressV6) (plen6 : Nat) (short6 : plen6 ≤ 128) :
    (Ip4Arithmetic shl ip addr plen ∧ Ip6Arithmetic ptonText ip6 addr6 plen6 ↔
      plen ≠ 0 ∧ ScopesHarmless ip6 addr6 plen6) ∧
    (Ip6Arithmetic ptonText ip6 addr6 plen6 ↔ ScopesHarmless ip6 addr6 plen6) ∧
    (∃ r, getIp4SubnetAddress shl addr plen = some r ∧ Keeps plen false (Ip4Address.bit addr) (Ip4Address.bit r)) ∧
    (plen = 0 → getIp4SubnetBroadcastAddress shl addr plen = none ∧ isIp4SubnetMember shl ip addr plen = none) := by
  have right6 := ip6_arithmetic_iff reads ip6 addr6 short6
  have undefined : plen = 0 → getIp4SubnetBroadcastAddress shl addr plen = none ∧ isIp4SubnetMember shl ip addr plen = none := by
    rintro rfl
    exact ⟨rfl, rfl⟩
  refine ⟨and_congr ⟨fun right zero => ?_, fun positive => ?_⟩ right6, right6, getIp4SubnetAddress_spec addr short, undefined⟩
  · obtain ⟨r, defined, _⟩ := right.member
    rw [(undefined zero).2] at defined
    cases defined
  · exact ⟨getIp4SubnetAddress_spec addr short, getIp4SubnetBroadcastAddress_spec addr positive short,
      isIp4SubnetMember_spec ip addr positive short⟩

/-- 10.1.2.3 in 10.0.0.0/8, and 2001:db8::1 in 2001:db8::/32. -/
theorem prefix_arithmetic_at_8 : Ip4Arithmetic shl 0x0a010203#32 0x0a000000#32 8 ∧
    Ip6Arithmetic (fun addr => if addr.scopeId = 0 then some addr.bytes else none)
      ⟨#v[0x20, 0x01, 0x0d, 0xb8, 0, 0, 0, 0, 0, 0, 0, 0, 0, 0, 0, 1], 0⟩
      ⟨#v[0x20, 0x01, 0x0d, 0xb8, 0, 0, 0, 0, 0, 0, 0, 0, 0, 0, 0, 0], 0⟩ 32 :=
  (prefix_arithmetic_iff _ (fun _ => rfl) _ _ 8 (by decide) _ _ 32 (by decide)).1.mpr ⟨by decide, .inl ⟨rfl, rfl⟩⟩

/-- 1.2.3.4 and the subnet 0.0.0.0/0: the shift is undefined; a machine that takes the count modulo 32 answers that the
address is no member, and that the broadcast address of 1.2.3.4/0 is 1.2.3.4. The prefix of `fe80::1%2` of length 64 is
made of words that were never set. -/
theorem length_zero_wrong :
    isIp4SubnetMember shl 0x01020304#32 0#32 0 = none ∧ isIp4SubnetMember shlModular 0x01020304#32 0#32 0 = some false ∧
    getIp4SubnetBroadcastAddress shl 0x01020304#32 0 = none ∧
    getIp4SubnetBroadcastAddress shlModular 0x01020304#32 0 = some 0x01020304#32 ∧
    getIp6SubnetAddress (fun addr => if addr.scopeId = 0 then some addr.bytes else none)
      ⟨#v[0xfe, 0x80, 0, 0, 0, 0, 0, 0, 0, 0, 0, 0, 0, 0, 0, 1], 2⟩ 64 = none := by
  decide

end TFCommon.Address
