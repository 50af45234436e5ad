import Mathlib.Tactic.IntervalCases
import TFCommon.Address.Model

/-! `IpToU64` takes the first eight bytes of an IPv6 address as the upper word and the last eight as the lower one;
`U64ToIp` puts the lower word first. -/
namespace TFCommon.Address
open Words

variable {i m : Nat}

theorem assemble_fields (b0 b1 b2 b3 : BitVec 8) : assemble b0 b1 b2 b3 = (b0.setWidth 32 <<< (8 * 3)) |||
    (b1.setWidth 32 <<< (8 * 2)) ||| (b2.setWidth 32 <<< (8 * 1)) ||| (b3.setWidth 32 <<< (8 * 0)) := by
  have mask3 : 0x000000FF#32 = (BitVec.allOnes 8).setWidth 32 <<< (8 * 0) := by decide
  have last : b3.setWidth 32 <<< (8 * 0) = b3.setWidth 32 := BitVec.shiftLeft_zero _
  rw [← and_field b0, ← and_field b1, ← and_field b2, ← and_field b3, ← mask3, last]
  rfl

theorem assemble_bit (b0 b1 b2 b3 : BitVec 8) (inside : i < 4) (bit : m < 8) :
    (assemble b0 b1 b2 b3).getLsbD (8 * i + m) = #v[b3, b2, b1, b0][i].getLsbD m := by
  have within : 8 * i + m < 32 := by omega
  rw [assemble_fields]
  simp only [BitVec.getLsbD_or, getLsbD_field _ within bit]
  interval_cases i <;> simp

theorem join_bit (hi lo : BitVec 32) (inside : i < 8) (bit : m < 8) :
    (((hi.setWidth 64 <<< 32) &&& 0xFFFFFFFF00000000#64) ||| (lo.setWidth 64 &&& 0x00000000FFFFFFFF#64)).getLsbD (8 * i + m) =
      if i < 4 then lo.getLsbD (8 * i + m) else hi.getLsbD (8 * (i - 4) + m) := by
  have upper : (hi.setWidth 64 <<< 32) &&& 0xFFFFFFFF00000000#64 = hi.setWidth 64 <<< (32 * 1) := by
    exact and_field hi
  have lower : lo.setWidth 64 &&& 0x00000000FFFFFFFF#64 = lo.setWidth 64 <<< (32 * 0) := by
    have mask : 0x00000000FFFFFFFF#64 = (BitVec.allOnes 32).setWidth 64 <<< (32 * 0) := by decide
    have same : lo.setWidth 64 <<< (32 * 0) = lo.setWidth 64 := BitVec.shiftLeft_zero _
    rw [← and_field lo, ← mask, same]
  rw [upper, lower, BitVec.getLsbD_or]
  split
  · have position : 8 * i + m = 32 * 0 + (8 * i + m) := by omega
    rw [position, getLsbD_field _ (by omega) (by omega), getLsbD_field _ (by omega) (by omega)]
    simp
  · have position : 8 * i + m = 32 * 1 + (8 * (i - 4) + m) := by omega
    rw [position, getLsbD_field _ (by omega) (by omega)]
    simp

theorem htobe64_join (b0 b1 b2 b3 b4 b5 b6 b7 : BitVec 8) :
    htobe64 ((((assemble b0 b1 b2 b3).setWidth 64 <<< 32) &&& 0xFFFFFFFF00000000#64) |||
      ((assemble b4 b5 b6 b7).setWidth 64 &&& 0x00000000FFFFFFFF#64)) = ofBytes 8 #v[b0, b1, b2, b3, b4, b5, b6, b7] := by
  apply eq_of_bits
  intro i m inside bit
  refine (getLsbD_byteSwap _ inside bit).trans ?_
  rw [getLsbD_ofBytes _ inside bit, join_bit _ _ (by omega) bit]
  by_cases late : 4 ≤ i
  · rw [assemble_bit _ _ _ _ (by omega) bit]
    interval_cases i <;> rfl
  · rw [if_neg (by omega), assemble_bit _ _ _ _ (by omega) bit]
    interval_cases i <;> rfl

def firstHalf (addr : Ip6Address) : Vector (BitVec 8) 8 := Vector.ofFn fun i => addr[i.val]

def lastHalf (addr : Ip6Address) : Vector (BitVec 8) 8 := Vector.ofFn fun i => addr[8 + i.val]

theorem u64ArrayLoop_eq (addr : Ip6Address) (arr : Vector (BitVec 64) 2) : u64ArrayLoop addr arr =
    #v[(((assemble addr[0] addr[1] addr[2] addr[3]).setWidth 64 <<< 32) &&& 0xFFFFFFFF00000000#64) |||
        ((assemble addr[4] addr[5] addr[6] addr[7]).setWidth 64 &&& 0x00000000FFFFFFFF#64),
      (((assemble addr[8] addr[9] addr[10] addr[11]).setWidth 64 <<< 32) &&& 0xFFFFFFFF00000000#64) |||
        ((assemble addr[12] addr[13] addr[14] addr[15]).setWidth 64 &&& 0x00000000FFFFFFFF#64)] := by
  match arr with
  | ⟨⟨[x, y]⟩, _⟩ => rfl

theorem ip6AddressToU64Array_eq (addr : Ip6Address) (arr : Vector (BitVec 64) 2) :
    ip6AddressToU64Array addr arr 2 = #v[ofBytes 8 (firstHalf addr), ofBytes 8 (lastHalf addr)] := by
  have swapped : ∀ words : Vector (BitVec 64) 2, ∀ x y, words = #v[x, y] →
      #v[htobe64 words[0], htobe64 words[1]] = #v[htobe64 x, htobe64 y] := by
    rintro _ x y rfl
    rfl
  have first : htobe64 _ = ofBytes 8 (firstHalf addr) :=
    htobe64_join addr[0] addr[1] addr[2] addr[3] addr[4] addr[5] addr[6] addr[7]
  have last : htobe64 _ = ofBytes 8 (lastHalf addr) :=
    htobe64_join addr[8] addr[9] addr[10] addr[11] addr[12] addr[13] addr[14] addr[15]
  have loop := swapped _ _ _ (u64ArrayLoop_eq addr arr)
  rw [first, last] at loop
  exact loop

theorem halves_eq (addr : Ip6Address) : firstHalf addr ++ lastHalf addr = addr := by
  apply Vector.ext
  intro i inside
  rw [Vector.getElem_append]
  split
  · simp [firstHalf]
  · have position : 8 + (i - 8) = i := by omega
    simp [lastHalf, position]

theorem firstHalf_append (first last : Vector (BitVec 8) 8) : firstHalf (first ++ last) = first := by
  apply Vector.ext
  intro i inside
  rw [firstHalf, Vector.getElem_ofFn]
  exact Vector.getElem_append_left inside

theorem lastHalf_append (first last : Vector (BitVec 8) 8) : lastHalf (first ++ last) = last := by
  apply Vector.ext
  intro i inside
  rw [lastHalf]
  have behind : (first ++ last)[8 + i] = last[8 + i - 8] := Vector.getElem_append_right (by omega) (by omega)
  simpa using behind

theorem wordsOf_v6 (addr : Ip6Address) (data : Vector (BitVec 64) 2) :
    wordsOf data (.v6 addr) = (ofBytes 8 (firstHalf addr), ofBytes 8 (lastHalf addr)) := by
  have array := ip6AddressToU64Array_eq addr data
  simp only [wordsOf, array]
  rfl

theorem u64ToIp_ipToU64_v6 (sipData dipData : Vector (BitVec 64) 2) (sip dip : Ip6Address) :
    u64ToIp (ipToU64 sipData dipData (.v6 sip) (.v6 dip)) .inet6 =
      (.v6 (lastHalf sip ++ firstHalf sip), .v6 (lastHalf dip ++ firstHalf dip)) := by
  simp [u64ToIp, ipToU64, wordsOf_v6, u64ToIpv6]

theorem ipToU64_u64ToIp_v6 (sipData dipData : Vector (BitVec 64) 2) (words : U64Words) :
    ipToU64 sipData dipData (u64ToIp words .inet6).1 (u64ToIp words .inet6).2 =
      ⟨words.sipL, words.sipU, words.dipL, words.dipU⟩ := by
  simp [u64ToIp, ipToU64, wordsOf_v6, u64ToIpv6, firstHalf_append, lastHalf_append]

theorem u64ToIp_ipToU64_v4 (sipData dipData : Vector (BitVec 64) 2) (sip dip : Ip4Address) :
    u64ToIp (ipToU64 sipData dipData (.v4 sip) (.v4 dip)) .inet = (.v4 sip, .v4 dip) := by
  have low : ∀ x : BitVec 32, ((x.setWidth 64) &&& 0xFFFFFFFF#64).setWidth 32 = x := by
    intro x
    have mask : 0xFFFFFFFF#64 = (BitVec.allOnes 32).setWidth 64 <<< 0 := by decide
    have kept := and_field (w := 64) (j := 0) x
    rw [← mask, BitVec.shiftLeft_zero] at kept
    rw [kept]
    simp
  simp [u64ToIp, ipToU64, wordsOf, low, ntohl, htonl]

theorem exchanged_eq_iff (addr : Ip6Address) : lastHalf addr ++ firstHalf addr = addr ↔ firstHalf addr = lastHalf addr := by
  constructor
  · intro same
    have first := firstHalf_append (lastHalf addr) (firstHalf addr)
    rw [same] at first
    exact first
  · intro same
    have whole := halves_eq addr
    rw [same] at whole
    rw [same]
    exact whole

/-- The IPv4 addresses come back for every pair; the IPv6 addresses exactly if each has equal halves, and the words
exactly if the upper one of each address is its lower one. -/
theorem u64_round_trip_iff (sipData dipData : Vector (BitVec 64) 2) (sip4 dip4 : Ip4Address) (sip dip : Ip6Address)
    (words : U64Words) :
    u64ToIp (ipToU64 sipData dipData (.v4 sip4) (.v4 dip4)) .inet = (.v4 sip4, .v4 dip4) ∧
    (u64ToIp (ipToU64 sipData dipData (.v6 sip) (.v6 dip)) .inet6 = (.v6 sip, .v6 dip) ↔
      firstHalf sip = lastHalf sip ∧ firstHalf dip = lastHalf dip) ∧
    (ipToU64 sipData dipData (u64ToIp words .inet6).1 (u64ToIp words .inet6).2 = words ↔
      words.sipU = words.sipL ∧ words.dipU = words.dipL) := by
  refine ⟨u64ToIp_ipToU64_v4 sipData dipData sip4 dip4, ?_, ?_⟩
  · rw [u64ToIp_ipToU64_v6, Prod.mk.injEq, IpAddress.v6.injEq, IpAddress.v6.injEq, exchanged_eq_iff, exchanged_eq_iff]
  · rw [ipToU64_u64ToIp_v6]
    obtain ⟨sipU, sipL, dipU, dipL⟩ := words
    simp only [U64Words.mk.injEq]
    constructor
    · rintro ⟨_, sip, _, dip⟩
      exact ⟨sip, dip⟩
    · rintro ⟨sip, dip⟩
      exact ⟨sip.symm, sip, dip.symm, dip⟩

/-- 2001:db8::1 comes back as 0:0:0:1:2001:db8::. -/
theorem u64_halves_exchanged :
    let addr : Ip6Address := #v[0x20, 0x01, 0x0d, 0xb8, 0, 0, 0, 0, 0, 0, 0, 0, 0, 0, 0, 1]
    let back : Ip6Address := #v[0, 0, 0, 0, 0, 0, 0, 1, 0x20, 0x01, 0x0d, 0xb8, 0, 0, 0, 0]
    u64ToIp (ipToU64 #v[0, 0] #v[0, 0] (.v6 addr) (.v6 addr)) .inet6 = (.v6 back, .v6 back) ∧ back ≠ addr := by
  intro addr back
  have exchanged : lastHalf addr ++ firstHalf addr = back := by decide
  rw [u64ToIp_ipToU64_v6, exchanged]
  exact ⟨rfl, by decide⟩

end TFCommon.Address
