import Mathlib.Tactic.ByContra
import Mathlib.Algebra.Group.Nat.Defs

/-! Ports of a shared BGP-as-a-service session (base/bgp_as_service_utils.cc). A configured range of
ports is repeated above itself, one copy for each index; `sport` is a `uint32_t`, an index a `size_t`
and the ends of the range are `uint16_t`, so the arithmetic mixes three widths. -/
namespace TFCommon.Bgpaas

def portRange (portRangeStart portRangeEnd : BitVec 16) : BitVec 16 :=
  portRangeEnd - portRangeStart + 1

def decodeBgpaasServicePort (sport : BitVec 32) (portRangeStart portRangeEnd : BitVec 16) : BitVec 32 × BitVec 64 :=
  if portRangeStart = 0 ∨ portRangeEnd = 0 ∨ sport < portRangeStart.setWidth 32 then (sport, 0)
  else if portRangeStart.setWidth 32 ≤ sport ∧ sport ≤ portRangeEnd.setWidth 32 then (sport, 0)
  else
    let range := (portRange portRangeStart portRangeEnd).setWidth 32
    let above := sport - portRangeEnd.setWidth 32
    (above % range - 1 + portRangeStart.setWidth 32, (above / range + 1).setWidth 64)

def encodeBgpaasServicePort (sport : BitVec 32) (index : BitVec 64) (portRangeStart portRangeEnd : BitVec 16) : BitVec 32 :=
  if index = 0 ∨ portRangeStart = 0 ∨ portRangeEnd = 0 then sport
  else
    let range := (portRange portRangeStart portRangeEnd).setWidth 64
    (portRangeStart.setWidth 64 + range * index + (sport - portRangeStart.setWidth 32).setWidth 64).setWidth 32

/-- A configured range that the functions do not refuse. -/
structure PortRange where
  start : BitVec 16
  stop : BitVec 16
  positive : 0 < start.toNat
  ordered : start.toNat ≤ stop.toNat

namespace PortRange

def size (range : PortRange) : Nat := range.stop.toNat - range.start.toNat + 1

/-- A port of the range with an index whose derived port has 32 bits. -/
structure Share (range : PortRange) where
  port : BitVec 32
  index : BitVec 64
  low : range.start.toNat ≤ port.toNat
  high : port.toNat ≤ range.stop.toNat
  fits : port.toNat + range.size * index.toNat < 2 ^ 32

def encode {range : PortRange} (share : range.Share) : BitVec 32 :=
  encodeBgpaasServicePort share.port share.index range.start range.stop

def decode (range : PortRange) (sport : BitVec 32) : BitVec 32 × BitVec 64 :=
  decodeBgpaasServicePort sport range.start range.stop

variable (range : PortRange)

theorem start_ne_zero : range.start ≠ 0 := by
  intro zero
  have positive := range.positive
  rw [zero] at positive
  exact Nat.lt_irrefl 0 positive

theorem stop_ne_zero : range.stop ≠ 0 := by
  intro zero
  have ordered := range.ordered
  have positive := range.positive
  rw [zero] at ordered
  exact Nat.lt_irrefl 0 (Nat.lt_of_lt_of_le positive ordered)

theorem toNat_portRange : (portRange range.start range.stop).toNat = range.size := by
  have positive := range.positive
  have ordered := range.ordered
  rw [portRange, size]
  change ((2 ^ 16 - range.start.toNat + range.stop.toNat) % 2 ^ 16 + 1) % 2 ^ 16 = _
  omega

theorem size_pos : 0 < range.size := Nat.succ_pos _

theorem size_lt : range.size < 2 ^ 16 := by
  rw [← toNat_portRange]
  exact (portRange range.start range.stop).isLt

variable {range}

theorem toNat_encode (share : range.Share) : (encode share).toNat = share.port.toNat + range.size * share.index.toNat := by
  have fits := share.fits
  by_cases first : share.index = 0
  · rw [encode, first]
    rfl
  · have refused : ¬ (share.index = 0 ∨ range.start = 0 ∨ range.stop = 0) := by
      rintro (none | none | none)
      · exact first none
      · exact range.start_ne_zero none
      · exact range.stop_ne_zero none
    rw [encode, encodeBgpaasServicePort, if_neg refused]
    simp only [BitVec.toNat_setWidth, BitVec.toNat_add, BitVec.toNat_mul, BitVec.toNat_sub, toNat_portRange]
    have size := range.size_lt
    rw [Nat.mod_eq_of_lt (Nat.lt_trans size (by decide : 2 ^ 16 < 2 ^ 64))]
    omega

theorem decode_within {sport : BitVec 32} (low : range.start.toNat ≤ sport.toNat) (high : sport.toNat ≤ range.stop.toNat) :
    range.decode sport = (sport, 0) := by
  have inside : range.start.setWidth 32 ≤ sport ∧ sport ≤ range.stop.setWidth 32 := by
    rw [BitVec.le_def, BitVec.le_def, BitVec.toNat_setWidth, BitVec.toNat_setWidth]
    omega
  rw [decode, decodeBgpaasServicePort, if_pos inside, ite_self]

theorem decode_above {sport : BitVec 32} (above : range.stop.toNat < sport.toNat) :
    (range.decode sport).1.toNat =
        ((sport.toNat - range.stop.toNat) % range.size + (2 ^ 32 - 1) + range.start.toNat) % 2 ^ 32 ∧
      (range.decode sport).2.toNat = (sport.toNat - range.stop.toNat) / range.size + 1 := by
  have positive := range.positive
  have ordered := range.ordered
  have refused : ¬ (range.start = 0 ∨ range.stop = 0 ∨ sport < range.start.setWidth 32) := by
    rintro (none | none | below)
    · exact range.start_ne_zero none
    · exact range.stop_ne_zero none
    · rw [BitVec.lt_def, BitVec.toNat_setWidth] at below
      omega
  have outside : ¬ (range.start.setWidth 32 ≤ sport ∧ sport ≤ range.stop.setWidth 32) := by
    rintro ⟨_, below⟩
    rw [BitVec.le_def, BitVec.toNat_setWidth] at below
    omega
  have size : (portRange range.start range.stop).toNat % 2 ^ 32 = range.size := by
    rw [toNat_portRange]
    exact Nat.mod_eq_of_lt (Nat.lt_trans range.size_lt (by decide))
  have distance : (2 ^ 32 - range.stop.toNat % 2 ^ 32 + sport.toNat) % 2 ^ 32 = sport.toNat - range.stop.toNat := by omega
  have quotient : (sport.toNat - range.stop.toNat) / range.size ≤ sport.toNat - range.stop.toNat := Nat.div_le_self _ _
  rw [decode, decodeBgpaasServicePort, if_neg refused, if_neg outside]
  simp only [BitVec.toNat_setWidth, BitVec.toNat_add, BitVec.toNat_sub, BitVec.toNat_umod, BitVec.toNat_udiv, size, distance]
  generalize (sport.toNat - range.stop.toNat) / range.size = copies at quotient ⊢
  generalize (sport.toNat - range.stop.toNat) % range.size = place
  change (((2 ^ 32 - 1 + place) % 2 ^ 32 + range.start.toNat % 2 ^ 32) % 2 ^ 32 = _) ∧ (copies + 1) % 2 ^ 32 % 2 ^ 64 = _
  omega

theorem distance (share : range.Share) (derived : share.index.toNat ≠ 0) :
    (encode share).toNat - range.stop.toNat =
        range.size * (share.index.toNat - 1) + (share.port.toNat - range.start.toNat + 1) ∧
      range.stop.toNat < (encode share).toNat := by
  have low := share.low
  have high := share.high
  obtain ⟨copies, next⟩ := Nat.exists_eq_succ_of_ne_zero derived
  rw [toNat_encode, next, Nat.succ_eq_add_one, Nat.mul_add, Nat.add_sub_cancel]
  have size : range.size = range.stop.toNat - range.start.toNat + 1 := rfl
  omega

theorem decode_first (share : range.Share) (first : share.index = 0) : range.decode (encode share) = (share.port, share.index) := by
  have same : encode share = share.port := by rw [encode, encodeBgpaasServicePort, if_pos (.inl first)]
  rw [same, first, decode_within share.low share.high]

theorem decode_inner (share : range.Share) (derived : share.index.toNat ≠ 0) (inner : share.port.toNat ≠ range.stop.toNat) :
    range.decode (encode share) = (share.port, share.index) := by
  have low := share.low
  have high := share.high
  obtain ⟨away, above⟩ := distance share derived
  obtain ⟨port, index⟩ := decode_above above
  have place : share.port.toNat - range.start.toNat + 1 < range.size := by
    have size : range.size = range.stop.toNat - range.start.toNat + 1 := rfl
    omega
  rw [away, Nat.mul_add_mod, Nat.mod_eq_of_lt place] at port
  rw [away, Nat.mul_add_div (Nat.zero_lt_of_lt place), Nat.div_eq_of_lt place] at index
  refine Prod.ext (BitVec.eq_of_toNat_eq ?_) (BitVec.eq_of_toNat_eq ?_)
  · change (range.decode (encode share)).1.toNat = share.port.toNat
    omega
  · change (range.decode (encode share)).2.toNat = share.index.toNat
    omega

theorem decode_last (share : range.Share) (derived : share.index.toNat ≠ 0) (last : share.port.toNat = range.stop.toNat) :
    (range.decode (encode share)).1.toNat = range.start.toNat - 1 ∧
      (range.decode (encode share)).2.toNat = share.index.toNat + 1 := by
  have positive := range.positive
  obtain ⟨away, above⟩ := distance share derived
  obtain ⟨port, index⟩ := decode_above above
  have size : share.port.toNat - range.start.toNat + 1 = range.size := by rw [last, PortRange.size]
  rw [away, size, Nat.mul_add_mod, Nat.mod_self] at port
  rw [away, size, ← Nat.mul_succ, Nat.mul_div_cancel_left _ range.size_pos] at index
  omega

theorem encode_injective (share other : range.Share) (same : encode share = encode other) :
    share.port = other.port ∧ share.index = other.index := by
  have place (s : range.Share) : s.port.toNat - range.start.toNat < range.size := by
    have high := s.high
    have size : range.size = range.stop.toNat - range.start.toNat + 1 := rfl
    omega
  have parts (s : range.Share) : (encode s).toNat - range.start.toNat =
      s.port.toNat - range.start.toNat + range.size * s.index.toNat := by
    rw [toNat_encode, Nat.sub_add_comm s.low]
  have remainder (s : range.Share) : ((encode s).toNat - range.start.toNat) % range.size = s.port.toNat - range.start.toNat := by
    rw [parts, Nat.add_mul_mod_self_left, Nat.mod_eq_of_lt (place s)]
  have quotient (s : range.Share) : ((encode s).toNat - range.start.toNat) / range.size = s.index.toNat := by
    rw [parts, Nat.add_mul_div_left _ _ range.size_pos, Nat.div_eq_of_lt (place s), Nat.zero_add]
  have ports := remainder share
  rw [same, remainder other] at ports
  have indices := quotient share
  rw [same, quotient other] at indices
  have low := share.low
  have low' := other.low
  exact ⟨BitVec.eq_of_toNat_eq (by omega), BitVec.eq_of_toNat_eq indices.symm⟩

/-- A share is decoded as it was encoded exactly if its index is 0 or its port is not the last one of the
range. The ports of different shares differ in any case. -/
theorem decode_encode_iff (range : PortRange) (share : range.Share) :
    (range.decode (encode share) = (share.port, share.index) ↔ share.index = 0 ∨ share.port ≠ range.stop.setWidth 32) ∧
      ∀ other : range.Share, encode share = encode other → share.port = other.port ∧ share.index = other.index := by
  have last : share.port = range.stop.setWidth 32 ↔ share.port.toNat = range.stop.toNat := by
    rw [BitVec.toNat_eq, BitVec.toNat_setWidth, Nat.mod_eq_of_lt (by omega)]
  refine ⟨⟨?_, ?_⟩, encode_injective share⟩
  · intro found
    by_contra! both
    have derived : share.index.toNat ≠ 0 := fun zero => both.1 (BitVec.eq_of_toNat_eq zero)
    have moved := (decode_last share derived (last.mp both.2)).2
    rw [found] at moved
    exact absurd moved (Nat.ne_of_lt (Nat.lt_succ_self _))
  · intro condition
    by_cases first : share.index = 0
    · exact decode_first share first
    · have derived : share.index.toNat ≠ 0 := fun zero => first (BitVec.eq_of_toNat_eq zero)
      exact decode_inner share derived fun same => condition.elim first fun inner => inner (last.mpr same)

/-- The range of the source's header comment. -/
def documented : PortRange := ⟨50000, 50512, by decide, by decide⟩

def lastShare : documented.Share := ⟨50512, 1, by decide, by decide, by decide⟩

/-- The last port with index 1 is given port 51025, which is decoded as port 49999 with index 2. -/
theorem last_share_moved :
    encode lastShare = 51025 ∧ documented.decode 51025 = (49999, 2) ∧
      documented.decode (encode lastShare) ≠ (lastShare.port, lastShare.index) := by
  decide

end PortRange

end TFCommon.Bgpaas
