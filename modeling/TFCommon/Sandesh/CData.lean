import TFCommon.Sandesh.Lookahead

/-! A string written between `<![CDATA[` and `]]>` and read back. The reader looks at three characters at a time, and
stops at the first `]]>`, be it of the string. -/
namespace TFCommon.Sandesh.Xml
open LookaheadReader Tape

def writeXML (str : List UInt8) : List UInt8 := cdataO ++ str ++ cdataC

def untilClose : List UInt8 → List UInt8
  | [] => []
  | b :: s => if cdataC <+: b :: s then [] else b :: untilClose s

theorem close_inside {b : UInt8} {s rest : List UInt8} (found : cdataC <+: b :: (s ++ (cdataC ++ rest))) :
    cdataC <+: b :: s := by
  match s, found with
  | [], found => simp [cdataC, sBracketC, tagC] at found
  | [_], found => simp [cdataC, sBracketC, tagC] at found
  | b :: b' :: s, found =>
    simp only [cdataC, List.cons_append, List.cons_prefix_cons] at found ⊢
    exact ⟨found.1, found.2.1, found.2.2.1, List.nil_prefix⟩

theorem untilClose_spec (s rest : List UInt8) :
    (∃ tail, s ++ (cdataC ++ rest) = untilClose s ++ (cdataC ++ tail)) ∧
      ∀ m < (untilClose s).length, ¬ cdataC <+: (s ++ (cdataC ++ rest)).drop m := by
  induction s with
  | nil => exact ⟨⟨rest, rfl⟩, nofun⟩
  | cons b s ih =>
    obtain ⟨⟨tail, same⟩, first⟩ := ih
    rw [untilClose]
    by_cases here : cdataC <+: b :: s
    · obtain ⟨tail, split⟩ := here
      rw [if_pos ⟨tail, split⟩]
      exact ⟨⟨tail ++ (cdataC ++ rest), by rw [← split]; rfl⟩, nofun⟩
    · rw [if_neg here]
      refine ⟨⟨tail, congrArg (b :: ·) same⟩, fun m below found => ?_⟩
      cases m with
      | zero => exact here (close_inside found)
      | succ m => exact first m (Nat.lt_of_succ_lt_succ below) found

theorem untilClose_eq {s : List UInt8} (absent : ¬ cdataC <:+: s) : untilClose s = s := by
  induction s with
  | nil => rfl
  | cons b s ih =>
    rw [untilClose, if_neg fun here => absent here.isInfix, ih fun later => absent (later.trans (List.suffix_cons b s).isInfix)]

/-- What is read is the part before the first `]]>`; with the brackets around it, it is all that is taken from the input. -/
theorem cdata_round_trip (s rest : List UInt8) (g : UInt8) (d : UInt8 × UInt8) :
    ∃ r, Returns (fun turns => readXMLCDATA turns (fresh (writeXML s ++ rest) g d))
        (((writeXML (untilClose s)).length : Nat), untilClose s, r) ∧
      writeXML (untilClose s) ++ r.input = writeXML s ++ rest ∧ r.hasData = false ∧ r.has2Data = false ∧
      (¬ cdataC <:+: s → untilClose s = s ∧ r.input = rest) := by
  obtain ⟨⟨tail, same⟩, first⟩ := untilClose_spec s rest
  have input : writeXML s ++ rest = cdataO ++ (s ++ (cdataC ++ rest)) := by simp only [writeXML, List.append_assoc]
  have whole : writeXML (untilClose s) ++ tail = writeXML s ++ rest := by
    rw [input, same, writeXML, List.append_assoc, List.append_assoc]
  generalize writeXML s ++ rest = w at *
  have behind : w.drop cdataO.length = s ++ (cdataC ++ rest) := by rw [input, List.drop_left]
  have size : w.length = cdataO.length + ((untilClose s).length + (3 + tail.length)) := by
    rw [input, same, List.length_append, List.length_append, List.length_append]
    rfl
  have ahead (m : Nat) (fits : m ≤ (untilClose s).length) :
      spelled (tape w g) (cdataO.length + m) 3 = ((s ++ (cdataC ++ rest)).drop m).take 3 := by
    rw [spelled_tape (by omega), ← List.drop_drop, behind]
  have search := loop_search (fun n => cdataAt w g d cdataO.length n (held (tape w g) cdataO.length n)) _
    (fun n => spelled (tape w g) (cdataO.length + n) 3 = cdataC) cdataTurn_leave cdataTurn_stay
    (n := (untilClose s).length) (by rw [ahead _ (Nat.le_refl _), same, List.drop_left]; rfl)
    fun m below found => first m below (List.prefix_iff_eq_take.mpr (found.symm.trans (ahead m (Nat.le_of_lt below))))
  have text : spelled (tape w g) cdataO.length (untilClose s).length = untilClose s := by
    rw [spelled_tape (by omega), behind, same, List.take_left]
  have count : cdataO.length + (untilClose s).length + 3 = (writeXML (untilClose s)).length := by
    rw [writeXML, List.length_append, List.length_append]
    rfl
  rw [text, count] at search
  have left : (after w g d (writeXML (untilClose s)).length).input = tail := by
    change w.drop _ = tail
    rw [← whole, List.drop_left]
  refine ⟨after w g d (writeXML (untilClose s)).length, ?_, ?_, rfl, rfl, fun absent => ?_⟩
  · rw [funext (readXMLCDATA_opened ⟨_, input.symm⟩)]
    exact search
  · rw [left, whole]
  · have all := untilClose_eq absent
    rw [all] at same
    exact ⟨all, left.trans (List.append_cancel_left (List.append_cancel_left same)).symm⟩

end TFCommon.Sandesh.Xml
