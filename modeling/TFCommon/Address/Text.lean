import TFCommon.Address.Model
import TFCommon.Lib.Radix

/-! Addresses as text, as the library prints them (`inet_ntop`), and a reader of such texts. Scope ids are left out. -/
namespace TFCommon.Address

/-! ### IPv4 -/

def dotted (octets : List Nat) : List Char := ['.'].intercalate (octets.map (Nat.toDigits 10))

def octets (addr : Ip4Address) : List Nat :=
  [addr.toNat / 2 ^ 24, addr.toNat / 2 ^ 16 % 256, addr.toNat / 2 ^ 8 % 256, addr.toNat % 256]

def readDotted (text : List Char) : Option (List Nat) := do
  let os ← (text.splitOn '.').mapM (Radix.read 10)
  if os.length = 4 ∧ ∀ o ∈ os, o < 256 then some os else none

def ofOctets (os : List Nat) : Ip4Address := BitVec.ofNat 32 (os.foldl (fun value o => 256 * value + o) 0)

/-! ### IPv6 -/

structure ZeroRun where
  base : Nat
  len : Nat
deriving DecidableEq, Repr

def better (cur best : Option ZeroRun) : Option ZeroRun :=
  match cur, best with
  | none, best => best
  | some run, none => some run
  | some run, some old => if old.len < run.len then some run else some old

def extend (i : Nat) : Option ZeroRun → ZeroRun
  | none => ⟨i, 1⟩
  | some run => ⟨run.base, run.len + 1⟩

def longest : List Nat → Nat → Option ZeroRun → Option ZeroRun → Option ZeroRun
  | [], _, cur, best => better cur best
  | w :: ws, i, cur, best =>
    if w = 0 then longest ws (i + 1) (some (extend i cur)) best
    else longest ws (i + 1) none (better cur best)

def bestRun (ws : List Nat) : Option ZeroRun := (longest ws 0 none none).filter fun run => 2 ≤ run.len

def hexWord (w : Nat) : List Char := Nat.toDigits 16 w

def join (parts : List (List Char)) : List Char := [':'].intercalate parts

def tailParts (ws : List Nat) (run : ZeroRun) : List (List Char) :=
  if run.base = 0 ∧ (run.len = 6 ∨ run.len = 5 ∧ ws[5]? = some 0xffff) then
    ((ws.take 6).drop run.len).map hexWord ++ [dotted ((ws.drop 6).flatMap fun w => [w / 256, w % 256])]
  else (ws.drop (run.base + run.len)).map hexWord

def wordsText (ws : List Nat) : List Char :=
  match bestRun ws with
  | none => join (ws.map hexWord)
  | some run => join ((ws.take run.base).map hexWord) ++ (':' :: ':' :: join (tailParts ws run))

def IpAddress.toString : IpAddress → List Char
  | .v4 addr => dotted (octets addr)
  | .v6 addr => wordsText (words addr)

/-! ### Reading -/

def cut : List Char → Option (List Char × List Char)
  | [] => none
  | [_] => none
  | c :: d :: rest =>
    if c = ':' ∧ d = ':' then some ([], rest) else (cut (d :: rest)).map fun parts => (c :: parts.1, parts.2)

def readWord (text : List Char) : Option Nat := (Radix.read 16 text).filter (· < 65536)

def readTail : List (List Char) → Option (List Nat)
  | [] => some []
  | [last] =>
    if '.' ∈ last then
      (readDotted last).map fun os => [256 * os.getD 0 0 + os.getD 1 0, 256 * os.getD 2 0 + os.getD 3 0]
    else (readWord last).map fun w => [w]
  | part :: next :: parts => do
    let w ← readWord part
    let ws ← readTail (next :: parts)
    return w :: ws

def splitColons (text : List Char) : List (List Char) := if text = [] then [] else text.splitOn ':'

def readWords (text : List Char) : Option (List Nat) :=
  match cut text with
  | none => readTail (splitColons text)
  | some (left, right) => do
    let first ← (splitColons left).mapM readWord
    let last ← readTail (splitColons right)
    return first ++ List.replicate (8 - first.length - last.length) 0 ++ last

def ofWords (ws : List Nat) : Option Ip6Address :=
  if ws.length = 8 then
    some (Vector.ofFn fun i => BitVec.ofNat 8 (if i.val % 2 = 0 then ws.getD (i / 2) 0 / 256 else ws.getD (i / 2) 0 % 256))
  else none

def readAddress (text : List Char) : Option IpAddress :=
  if ':' ∈ text then ((readWords text).bind ofWords).map .v6 else (readDotted text).map fun os => .v4 (ofOctets os)

/-! ### What is read is what was printed -/

theorem mapM_map {α β : Type} {f : α → β} {g : β → Option α} {l : List α} (back : ∀ a ∈ l, g (f a) = some a) :
    (l.map f).mapM g = some l := by
  induction l with
  | nil => rfl
  | cons a l ih =>
    rw [List.map_cons, List.mapM_cons, back a List.mem_cons_self, ih fun b inside => back b (List.mem_cons_of_mem a inside)]
    rfl

variable {c : Char} {ws : List Nat} {parts : List (List Char)}

theorem not_mem_toDigits {b n : Nat} (wide : 1 < b) (narrow : b ≤ 16) (other : Radix.isHex c = false) :
    c ∉ Nat.toDigits b n := by
  intro inside
  obtain ⟨d, small, rfl⟩ := Radix.exists_digit wide n inside
  rw [Radix.isHex_digitChar (Nat.lt_of_lt_of_le small narrow)] at other
  cases other

theorem readDotted_dotted {os : List Nat} (four : os.length = 4) (small : ∀ o ∈ os, o < 256) :
    readDotted (dotted os) = some os := by
  have parts : (dotted os).splitOn '.' = os.map (Nat.toDigits 10) := by
    refine List.splitOn_intercalate '.' ?_ ?_
    · intro part inside
      obtain ⟨o, _, rfl⟩ := List.mem_map.mp inside
      exact not_mem_toDigits (by decide) (by decide) (by decide)
    · rintro none
      rw [List.map_eq_nil_iff.mp none] at four
      cases four
  rw [readDotted, parts, mapM_map fun o _ => Radix.read_toDigits (by decide) (by decide) o]
  exact if_pos ⟨four, small⟩

theorem ofOctets_octets (addr : Ip4Address) : ofOctets (octets addr) = addr := by
  apply BitVec.eq_of_toNat_eq
  simp only [ofOctets, octets, List.foldl_cons, List.foldl_nil, BitVec.toNat_ofNat]
  omega

/-! ### The run that is left out -/

def IsRun (all : List Nat) (run : ZeroRun) : Prop := ∀ k < run.len, all[run.base + k]? = some 0

theorem better_isRun {all : List Nat} {cur best : Option ZeroRun} (running : ∀ run, cur = some run → IsRun all run)
    (ended : ∀ run, best = some run → IsRun all run) : ∀ run, better cur best = some run → IsRun all run := by
  intro run found
  unfold better at found
  split at found
  · exact ended run found
  · exact running run found
  · split at found
    · exact running run found
    · exact ended run found

theorem IsRun.extend {all : List Nat} {i : Nat} {cur : Option ZeroRun} (zero : all[i]? = some 0)
    (running : ∀ run, cur = some run → run.base + run.len = i ∧ IsRun all run) :
    (extend i cur).base + (extend i cur).len = i + 1 ∧ IsRun all (extend i cur) := by
  cases cur with
  | none =>
    refine ⟨rfl, fun k inside => ?_⟩
    obtain rfl : k = 0 := Nat.lt_one_iff.mp inside
    exact zero
  | some run =>
    obtain ⟨reaches, isRun⟩ := running run rfl
    refine ⟨congrArg Nat.succ reaches, fun k inside => ?_⟩
    rcases Nat.lt_succ_iff_lt_or_eq.mp inside with before | rfl
    · exact isRun k before
    · exact (congrArg (all[·]?) reaches).trans zero

theorem longest_isRun (all ws : List Nat) (i : Nat) (cur best : Option ZeroRun) (here : all.drop i = ws)
    (running : ∀ run, cur = some run → run.base + run.len = i ∧ IsRun all run)
    (ended : ∀ run, best = some run → IsRun all run) : ∀ run, longest ws i cur best = some run → IsRun all run := by
  induction ws generalizing i cur best with
  | nil => exact better_isRun (fun run now => (running run now).2) ended
  | cons w ws ih =>
    have word : all[i]? = some w := by
      have first := congrArg (·[0]?) here
      simpa using first
    have later : all.drop (i + 1) = ws := by
      rw [← List.drop_drop, here]
      rfl
    rw [longest]
    split
    · rename_i zero
      refine ih _ _ best later (fun run same => ?_) ended
      cases same
      exact IsRun.extend (zero ▸ word) running
    · refine ih _ none _ later nofun ?_
      exact better_isRun (fun run now => (running run now).2) ended

theorem bestRun_isRun {run : ZeroRun} (found : bestRun ws = some run) : 2 ≤ run.len ∧ IsRun ws run := by
  obtain ⟨longest, long⟩ := Option.filter_eq_some_iff.mp found
  refine ⟨of_decide_eq_true long, ?_⟩
  exact longest_isRun ws ws 0 none none rfl nofun nofun run longest

theorem IsRun.split {run : ZeroRun} (isRun : IsRun ws run) (some_ : 0 < run.len) :
    run.base + run.len ≤ ws.length ∧ ws.take run.base ++ List.replicate run.len 0 ++ ws.drop (run.base + run.len) = ws := by
  have reach : run.base + run.len ≤ ws.length := by
    obtain ⟨last, _⟩ := List.getElem?_eq_some_iff.mp (isRun (run.len - 1) (by omega))
    omega
  have zeros : (ws.drop run.base).take run.len = List.replicate run.len 0 := by
    apply List.ext_getElem?
    intro k
    rw [List.getElem?_take, List.getElem?_replicate, List.getElem?_drop]
    split
    · rename_i inside
      exact isRun k inside
    · rfl
  refine ⟨reach, ?_⟩
  rw [← zeros, ← List.drop_drop, List.append_assoc, List.take_append_drop, List.take_append_drop]

/-! ### Colons -/

structure IsPart (part : List Char) : Prop where
  some_ : part ≠ []
  plain : ':' ∉ part

theorem hexWord_isPart (w : Nat) : IsPart (hexWord w) :=
  ⟨Nat.toDigits_ne_nil, not_mem_toDigits (by decide) (by decide) (by decide)⟩

theorem hexWords_isPart (ws : List Nat) : ∀ part ∈ ws.map hexWord, IsPart part := by
  intro part inside
  obtain ⟨w, _, rfl⟩ := List.mem_map.mp inside
  exact hexWord_isPart w

theorem join_cons_cons (p q : List Char) (parts : List (List Char)) :
    join (p :: q :: parts) = p ++ ':' :: join (q :: parts) := by
  rfl

theorem join_ne_nil {p : List Char} (part : IsPart p) : join (p :: parts) ≠ [] := by
  cases parts with
  | nil => exact List.append_ne_nil_of_left_ne_nil part.some_ _
  | cons q parts =>
    exact List.append_ne_nil_of_left_ne_nil part.some_ _

theorem splitColons_join (all : ∀ part ∈ parts, IsPart part) :
    splitColons (join parts) = parts := by
  cases parts with
  | nil => rfl
  | cons p parts =>
    rw [splitColons, if_neg (join_ne_nil (all p List.mem_cons_self))]
    exact List.splitOn_intercalate ':' (fun part inside => (all part inside).plain) (List.cons_ne_nil _ _)

theorem cut_append {text : List Char} (plain : ':' ∉ text) (t : List Char) :
    cut (text ++ t) = (cut t).map fun parts => (text ++ parts.1, parts.2) := by
  induction text with
  | nil => simp
  | cons c text ih =>
    obtain ⟨first, later⟩ := not_or.mp (mt List.mem_cons.mpr plain)
    have tail := ih later
    rw [List.cons_append]
    cases rest : text ++ t with
    | nil =>
      obtain ⟨rfl, rfl⟩ := List.append_eq_nil_iff.mp rest
      rfl
    | cons d rest =>
      rw [cut, if_neg fun both => first both.1.symm, ← rest, tail, Option.map_map]
      rfl

theorem cut_colon {d : Char} (other : d ≠ ':') (t : List Char) :
    cut (':' :: d :: t) = (cut (d :: t)).map fun parts => (':' :: parts.1, parts.2) := by
  rw [cut, if_neg fun both => other both.2]

theorem cut_join (all : ∀ part ∈ parts, IsPart part) (t : List Char) :
    cut (join parts ++ t) = (cut t).map fun cuts => (join parts ++ cuts.1, cuts.2) := by
  induction parts with
  | nil => exact Option.map_id'.symm
  | cons p parts ih =>
    obtain ⟨part, others⟩ := List.forall_mem_cons.mp all
    cases parts with
    | nil =>
      have alone : join [p] = p := List.append_nil p
      rw [alone, cut_append part.plain]
    | cons q parts =>
      obtain ⟨c, chars, same⟩ := List.exists_cons_of_ne_nil (others q List.mem_cons_self).some_
      have other : c ≠ ':' := by
        rintro rfl
        exact (others q List.mem_cons_self).plain (same ▸ List.mem_cons_self)
      have begins : ∃ more, join (q :: parts) ++ t = c :: more := by
        cases parts with
        | nil => exact ⟨_, by rw [same]; rfl⟩
        | cons r parts => exact ⟨_, by rw [join_cons_cons, same]; rfl⟩
      obtain ⟨more, begins⟩ := begins
      rw [join_cons_cons, List.append_assoc, cut_append part.plain, List.cons_append, begins, cut_colon other, ← begins,
        ih others, Option.map_map, Option.map_map]
      simp [Function.comp_def]

theorem readWord_hexWord {w : Nat} (small : w < 65536) : readWord (hexWord w) = some w := by
  rw [readWord, hexWord, Radix.read_toDigits (by decide) (by decide)]
  exact if_pos (decide_eq_true small)

theorem readTail_cons {w : Nat} (small : w < 65536) (parts : List (List Char)) :
    readTail (hexWord w :: parts) = (readTail parts).map (w :: ·) := by
  have undotted : '.' ∉ hexWord w := not_mem_toDigits (by decide) (by decide) (by decide)
  cases parts with
  | nil =>
    have read : readTail [hexWord w] = (readWord (hexWord w)).map fun w => [w] := if_neg undotted
    rw [read, readWord_hexWord small]
    rfl
  | cons q parts =>
    rw [readTail, readWord_hexWord small]
    cases readTail (q :: parts) with
    | none => rfl
    | some ws => rfl

theorem readTail_append (small : ∀ w ∈ ws, w < 65536) (parts : List (List Char)) :
    readTail (ws.map hexWord ++ parts) = (readTail parts).map (ws ++ ·) := by
  induction ws with
  | nil => exact Option.map_id'.symm
  | cons w ws ih =>
    obtain ⟨here, others⟩ := List.forall_mem_cons.mp small
    rw [List.map_cons, List.cons_append, readTail_cons here, ih others, Option.map_map]
    rfl

theorem readTail_dotted {x y : Nat} (small : x < 65536 ∧ y < 65536) :
    readTail [dotted [x / 256, x % 256, y / 256, y % 256]] = some [x, y] := by
  have dot : '.' ∈ dotted [x / 256, x % 256, y / 256, y % 256] := by
    exact List.mem_append_right _ List.mem_cons_self
  rw [readTail, if_pos dot, readDotted_dotted rfl]
  · simp [Nat.div_add_mod]
  · simp
    omega

theorem mem_intercalate {x c : Char} (inside : c ∈ [x].intercalate parts) :
    c = x ∨ ∃ part ∈ parts, c ∈ part := by
  induction parts with
  | nil => cases inside
  | cons p parts ih =>
    cases parts with
    | nil => exact .inr ⟨p, List.mem_cons_self, List.append_nil p ▸ inside⟩
    | cons q parts =>
      rw [List.intercalate_cons_cons, List.mem_append, List.mem_append] at inside
      rcases inside with (first | separator) | later
      · exact .inr ⟨p, List.mem_cons_self, first⟩
      · exact .inl (List.mem_singleton.mp separator)
      · exact (ih later).imp_right fun ⟨part, member, inside⟩ => ⟨part, List.mem_cons_of_mem p member, inside⟩

theorem mem_dotted {os : List Nat} (inside : c ∈ dotted os) : c = '.' ∨ Radix.isHex c = true := by
  refine (mem_intercalate inside).imp_right fun ⟨part, member, inside⟩ => ?_
  obtain ⟨o, _, rfl⟩ := List.mem_map.mp member
  obtain ⟨d, small, rfl⟩ := Radix.exists_digit (by decide) o inside
  exact Radix.isHex_digitChar (Nat.lt_trans small (by decide))

theorem dotted_isPart (a b : Nat) (os : List Nat) : IsPart (dotted (a :: b :: os)) := by
  constructor
  · exact List.append_ne_nil_of_left_ne_nil Nat.toDigits_ne_nil _
  · intro inside
    rcases mem_dotted inside with dot | hex
    · exact absurd dot (by decide)
    · exact absurd hex (by decide)

section run
variable {ws : List Nat} {run : ZeroRun}

theorem readTail_tailParts (eight : ws.length = 8) (small : ∀ w ∈ ws, w < 65536) :
    readTail (tailParts ws run) = some (ws.drop (run.base + run.len)) ∧ ∀ part ∈ tailParts ws run, IsPart part := by
  unfold tailParts
  split
  · rename_i embedded
    obtain ⟨start, length⟩ := embedded
    obtain ⟨x, y, last⟩ : ∃ x y, ws.drop 6 = [x, y] := List.length_eq_two.mp (by rw [List.length_drop, eight])
    have both : x < 65536 ∧ y < 65536 := by
      constructor <;> exact small _ (List.mem_of_mem_drop (i := 6) (by simp [last]))
    have front : ∀ w ∈ (ws.take 6).drop run.len, w < 65536 := fun w inside =>
      small w (List.mem_of_mem_take (List.mem_of_mem_drop inside))
    have octets : (ws.drop 6).flatMap (fun w => [w / 256, w % 256]) = [x / 256, x % 256, y / 256, y % 256] := by
      rw [last]
      rfl
    rw [octets, start, Nat.zero_add]
    constructor
    · rw [readTail_append front, readTail_dotted both, ← last, Option.map_some]
      rw [← List.drop_append_of_le_length (by rw [List.length_take]; omega), List.take_append_drop]
    · exact List.forall_mem_append.mpr ⟨hexWords_isPart _, by simpa using dotted_isPart _ _ _⟩
  · have back : ∀ w ∈ ws.drop (run.base + run.len), w < 65536 := fun w inside => small w (List.mem_of_mem_drop inside)
    have read := readTail_append back []
    rw [List.append_nil] at read
    exact ⟨read.trans (congrArg some (List.append_nil _)), hexWords_isPart _⟩

theorem readWords_wordsText (eight : ws.length = 8) (small : ∀ w ∈ ws, w < 65536) : readWords (wordsText ws) = some ws := by
  have read := readTail_append small []
  unfold wordsText
  split
  · have whole := cut_join (hexWords_isPart ws) []
    rw [List.append_nil] at whole read
    rw [readWords, whole]
    rw [splitColons_join (hexWords_isPart ws), read]
    exact congrArg some (List.append_nil _)
  · rename_i run found
    obtain ⟨long, isRun⟩ := bestRun_isRun found
    obtain ⟨reach, split⟩ := isRun.split (by omega)
    obtain ⟨tail, parts⟩ := @readTail_tailParts ws run eight small
    have left : ((ws.take run.base).map hexWord).mapM readWord = some (ws.take run.base) :=
      mapM_map fun w inside => readWord_hexWord (small w (List.mem_of_mem_take inside))
    rw [readWords, cut_join (hexWords_isPart _)]
    change (do
      let first ← (splitColons (join ((ws.take run.base).map hexWord) ++ [])).mapM readWord
      let last ← readTail (splitColons (join (tailParts ws run)))
      return first ++ List.replicate (8 - first.length - last.length) 0 ++ last) = _
    rw [List.append_nil, splitColons_join (hexWords_isPart _), splitColons_join parts, left, tail]
    have zeros : 8 - (ws.take run.base).length - (ws.drop (run.base + run.len)).length = run.len := by
      rw [List.length_take, List.length_drop]
      omega
    change some _ = _
    rw [zeros, split]

theorem mem_tailParts {part : List Char} (member : part ∈ tailParts ws run) (inside : c ∈ part) :
    c = '.' ∨ Radix.isHex c = true := by
  have hex : ∀ {us : List Nat}, part ∈ us.map hexWord → Radix.isHex c = true := by
    intro us member
    obtain ⟨w, _, rfl⟩ := List.mem_map.mp member
    exact Radix.isHex_toDigits inside
  unfold tailParts at member
  split at member
  · rcases List.mem_append.mp member with word | last
    · exact .inr (hex word)
    · rw [List.mem_singleton.mp last] at inside
      exact mem_dotted inside
  · exact .inr (hex member)

theorem mem_wordsText (inside : c ∈ wordsText ws) : c = ':' ∨ c = '.' ∨ Radix.isHex c = true := by
  have hex : ∀ {us : List Nat}, c ∈ join (us.map hexWord) → c = ':' ∨ Radix.isHex c = true := by
    intro us inside
    refine (mem_intercalate inside).imp_right fun ⟨part, member, inside⟩ => ?_
    obtain ⟨w, _, rfl⟩ := List.mem_map.mp member
    exact Radix.isHex_toDigits inside
  unfold wordsText at inside
  split at inside
  · exact (hex inside).imp_right .inr
  · rcases List.mem_append.mp inside with left | right
    · exact (hex left).imp_right .inr
    · rcases List.mem_cons.mp right with colon | right
      · exact .inl colon
      · rcases List.mem_cons.mp right with colon | right
        · exact .inl colon
        · exact (mem_intercalate right).imp_right fun ⟨part, member, inside⟩ => mem_tailParts member inside

theorem colon_mem_wordsText (eight : ws.length = 8) : ':' ∈ wordsText ws := by
  unfold wordsText
  split
  · match ws, eight with
    | a :: b :: rest, _ =>
      exact List.mem_append_right _ List.mem_cons_self
  · exact List.mem_append_right _ List.mem_cons_self

end run

theorem ofWords_words (addr : Ip6Address) : ofWords (words addr) = some addr := by
  have word : ∀ j (inside : j < 8), (words addr).getD j 0 = 256 * addr[2 * j].toNat + addr[2 * j + 1].toNat := by
    intro j inside
    rw [words, List.getD_eq_getElem?_getD, List.getElem?_ofFn, dif_pos inside]
    rfl
  refine congrArg some (Vector.ext fun i inside => ?_)
  rw [Vector.getElem_ofFn]
  dsimp only
  rw [word (i / 2) (by omega)]
  apply BitVec.eq_of_toNat_eq
  rw [BitVec.toNat_ofNat]
  split
  · have low : 2 * (i / 2) = i := by omega
    simp only [low]
    omega
  · have high : 2 * (i / 2) + 1 = i := by omega
    simp only [high]
    omega

theorem readAddress_toString (addr : IpAddress) : readAddress addr.toString = some addr := by
  cases addr with
  | v4 addr =>
    have plain : ':' ∉ dotted (octets addr) := (dotted_isPart _ _ _).plain
    have small : ∀ o ∈ octets addr, o < 256 := by
      simp only [octets, List.forall_mem_cons, List.not_mem_nil, false_imp_iff, implies_true, and_true]
      omega
    rw [IpAddress.toString, readAddress, if_neg plain, readDotted_dotted rfl small, Option.map_some, ofOctets_octets]
  | v6 addr =>
    have eight : (words addr).length = 8 := List.length_ofFn
    have small : ∀ w ∈ words addr, w < 65536 := by
      intro w inside
      obtain ⟨i, rfl⟩ := List.mem_ofFn.mp inside
      omega
    rw [IpAddress.toString, readAddress, if_pos (colon_mem_wordsText eight), readWords_wordsText eight small,
      Option.bind_some, ofWords_words]
    rfl

theorem mem_toString {addr : IpAddress} (inside : c ∈ addr.toString) :
    c = ':' ∨ c = '.' ∨ Radix.isHex c = true := by
  cases addr with
  | v4 addr => exact .inr (mem_dotted inside)
  | v6 addr => exact mem_wordsText inside

end TFCommon.Address
