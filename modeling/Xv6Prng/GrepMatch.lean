import Xv6Prng.Library.ByteWords

/-!
# The matcher of `grep`

`match`, `matchhere` and `matchstar` against the language of a pattern. A C string is the list of
the bytes before its zero byte, so that the end of the list is that byte.
-/

namespace Xv6Prng.Grep

open Computability

abbrev caret : Byte := 0x5e
abbrev dollar : Byte := 0x24
abbrev star : Byte := 0x2a
abbrev dot : Byte := 0x2e

mutual

def matchhere (re text : List Byte) : Bool :=
  match re with
  | [] => true
  | c :: re =>
    if re.head? = some star then matchstar c re.tail text
    else if c = dollar ∧ re = [] then text.isEmpty
    else
      match text with
      | [] => false
      | t :: text => if c = dot ∨ c = t then matchhere re text else false
termination_by (re.length, 0, 0)

def matchstar (c : Byte) (re text : List Byte) : Bool :=
  if matchhere re text then true
  else
    match text with
    | [] => false
    | t :: text => if t = c ∨ c = dot then matchstar c re text else false
termination_by (re.length, 1, text.length)

end

/-- The loop of `match`; it looks at the empty string too. -/
def matchLoop (re : List Byte) : List Byte → Bool
  | [] => matchhere re []
  | t :: text => if matchhere re (t :: text) then true else matchLoop re text

/-- The function `match`, whose name Lean keeps for itself. -/
def matchText (re text : List Byte) : Bool :=
  if re.head? = some caret then matchhere re.tail text else matchLoop re text

def Fits (c b : Byte) : Prop := c = dot ∨ c = b

def single (c : Byte) : Language Byte := {w | ∃ b, Fits c b ∧ w = [b]}

/-- A pattern without anchors: literals, `.` and closures. -/
def language : List Byte → Language Byte
  | [] => 1
  | [c] => single c
  | c :: d :: re => if d = star then (single c)∗ * language re else single c * language (d :: re)

def unrooted (re : List Byte) : List Byte := if re.head? = some caret then re.tail else re

def unended (re : List Byte) : List Byte := if re.getLast? = some dollar then re.dropLast else re

section Language

variable {c d : Byte} {re w text : List Byte}

theorem mem_kstar_single : w ∈ (single c)∗ ↔ ∀ b ∈ w, Fits c b := by
  rw [Language.mem_kstar]
  constructor
  · rintro ⟨L, rfl, hL⟩ b hb
    obtain ⟨y, hy, hby⟩ := List.mem_flatten.mp hb
    obtain ⟨b', hfits, rfl⟩ := hL y hy
    rwa [List.mem_singleton.mp hby]
  · intro h
    refine ⟨w.map fun b => [b], ?_, fun y hy => ?_⟩
    · rw [← List.flatMap_def, List.flatMap_singleton']
    · obtain ⟨b, hb, rfl⟩ := List.mem_map.mp hy
      exact ⟨b, h b hb, rfl⟩

theorem language_cons (h : re.head? ≠ some star) : language (c :: re) = single c * language re := by
  cases re with
  | nil => rw [language, language, mul_one]
  | cons d re => rw [language, if_neg fun hd => h (congrArg some hd)]

theorem unended_cons (h : re ≠ []) : unended (c :: re) = c :: unended re := by
  rw [unended, unended, List.getLast?_cons_of_ne_nil h]
  split_ifs
  · exact List.dropLast_cons_of_ne_nil h
  · rfl

theorem unended_singleton (h : c ≠ dollar) : unended [c] = [c] :=
  if_neg fun hc => h (Option.some_inj.mp hc)

theorem head?_unended (h : re.head? ≠ some star) : (unended re).head? ≠ some star := by
  rw [unended]
  split_ifs
  · cases re with
    | nil => exact h
    | cons c re =>
      cases re with
      | nil => simp
      | cons d re => simpa using h
  · exact h

end Language

/-- A part of the text at its beginning is in the language, all of the text if there is a `$`. -/
def Here (re text : List Byte) : Prop :=
  ∃ mid post, text = mid ++ post ∧ mid ∈ language (unended re) ∧
    (re.getLast? = some dollar → post = [])

section Match

variable {c t : Byte} {re text : List Byte}

theorem here_nil (text : List Byte) : Here [] text := ⟨[], text, rfl, rfl, by simp⟩

theorem here_dollar : Here [dollar] text ↔ text = [] := by
  constructor
  · rintro ⟨mid, post, rfl, hmid, hpost⟩
    rw [hpost rfl, List.append_nil]
    exact hmid
  · rintro rfl
    exact ⟨[], [], rfl, rfl, fun _ => rfl⟩

theorem here_one (hstar : re.head? ≠ some star) (hend : ¬ (c = dollar ∧ re = [])) :
    Here (c :: re) text ↔ ∃ t rest, text = t :: rest ∧ Fits c t ∧ Here re rest := by
  have hlang : language (unended (c :: re)) = single c * language (unended re) ∧
      ((c :: re).getLast? = some dollar ↔ re.getLast? = some dollar) := by
    cases re with
    | nil =>
      have hc : c ≠ dollar := fun hc => hend ⟨hc, rfl⟩
      rw [unended_singleton hc, language_cons (by simp)]
      exact ⟨rfl, by simpa using hc⟩
    | cons d re =>
      rw [unended_cons (List.cons_ne_nil d re), language_cons (head?_unended hstar)]
      exact ⟨rfl, by rw [List.getLast?_cons_of_ne_nil (List.cons_ne_nil d re)]⟩
  rw [Here, hlang.1, hlang.2]
  constructor
  · rintro ⟨mid, post, rfl, hmid, hpost⟩
    obtain ⟨_, ⟨b, hfits, rfl⟩, mid, hin, rfl⟩ := Language.mem_mul.mp hmid
    exact ⟨b, mid ++ post, rfl, hfits, mid, post, rfl, hin, hpost⟩
  · rintro ⟨b, _, rfl, hfits, mid, post, rfl, hin, hpost⟩
    have hsingle : [b] ∈ single c := ⟨b, hfits, rfl⟩
    exact ⟨b :: mid, post, rfl, Language.append_mem_mul hsingle hin, hpost⟩

theorem here_star : Here (c :: star :: re) text ↔
    ∃ w rest, text = w ++ rest ∧ (∀ b ∈ w, Fits c b) ∧ Here re rest := by
  have hlang : language (unended (c :: star :: re)) = (single c)∗ * language (unended re) ∧
      ((c :: star :: re).getLast? = some dollar ↔ re.getLast? = some dollar) := by
    rw [unended_cons (List.cons_ne_nil star re)]
    cases re with
    | nil => exact ⟨by rw [unended_singleton (by decide)]; rfl, by simp⟩
    | cons d re =>
      rw [unended_cons (List.cons_ne_nil d re), language, if_pos rfl]
      exact ⟨rfl, by simp⟩
  rw [Here, hlang.1, hlang.2]
  constructor
  · rintro ⟨mid, post, rfl, hmid, hpost⟩
    obtain ⟨w, hw, mid, hin, rfl⟩ := Language.mem_mul.mp hmid
    exact ⟨w, mid ++ post, List.append_assoc w mid post, mem_kstar_single.mp hw, mid, post, rfl,
      hin, hpost⟩
  · rintro ⟨w, _, rfl, hw, mid, post, rfl, hin, hpost⟩
    exact ⟨w ++ mid, post, (List.append_assoc w mid post).symm,
      Language.append_mem_mul (mem_kstar_single.mpr hw) hin, hpost⟩

theorem matchstar_iff : matchstar c re text = true ↔
    ∃ w rest, text = w ++ rest ∧ (∀ b ∈ w, Fits c b) ∧ matchhere re rest = true := by
  induction text with
  | nil =>
    rw [matchstar]
    constructor
    · intro h
      exact ⟨[], [], rfl, by simp, by simpa using h⟩
    · rintro ⟨w, rest, hnil, -, h⟩
      obtain ⟨rfl, rfl⟩ := List.append_eq_nil_iff.mp hnil.symm
      simp [h]
  | cons t text ih =>
    rw [matchstar]
    split_ifs with hhere hfits
    · exact iff_of_true rfl ⟨[], t :: text, rfl, by simp, hhere⟩
    · rw [ih]
      have hct : Fits c t := hfits.symm.imp_right Eq.symm
      constructor
      · rintro ⟨w, rest, rfl, hw, h⟩
        exact ⟨t :: w, rest, rfl, List.forall_mem_cons.mpr ⟨hct, hw⟩, h⟩
      · rintro ⟨w, rest, heq, hw, h⟩
        cases w with
        | nil => exact absurd (heq ▸ h) hhere
        | cons b w =>
          obtain ⟨rfl, rfl⟩ := List.cons_eq_cons.mp heq
          exact ⟨w, rest, rfl, fun b hb => hw b (List.mem_cons_of_mem t hb), h⟩
    · refine iff_of_false (by simp) ?_
      rintro ⟨w, rest, heq, hw, h⟩
      cases w with
      | nil => exact hhere (heq ▸ h)
      | cons b w =>
        obtain ⟨rfl, rfl⟩ := List.cons_eq_cons.mp heq
        exact hfits ((hw t List.mem_cons_self).symm.imp_left Eq.symm)

theorem matchhere_iff (re text : List Byte) : matchhere re text = true ↔ Here re text := by
  -- a turn takes one byte off the pattern, a closure two
  induction hn : re.length using Nat.strong_induction_on generalizing re text with
  | _ n ih =>
    subst hn
    cases re with
    | nil =>
      rw [matchhere.eq_def]
      exact iff_of_true rfl (here_nil text)
    | cons c re =>
      rw [matchhere.eq_def]
      dsimp only
      split_ifs with hstar hend
      · obtain ⟨re, rfl⟩ : ∃ r, re = star :: r := List.head?_eq_some_iff.mp hstar
        rw [matchstar_iff, here_star]
        simp only [List.tail_cons, ih re.length (by simp) re _ rfl]
      · obtain ⟨rfl, rfl⟩ := hend
        rw [here_dollar, List.isEmpty_iff]
      · rw [here_one hstar hend]
        cases text with
        | nil => simp
        | cons t text =>
          have hrec := ih re.length (by simp) re text rfl
          dsimp only
          split_ifs with hfits
          · rw [hrec]
            constructor
            · intro h
              exact ⟨t, text, rfl, hfits, h⟩
            · rintro ⟨t', text', heq, -, h⟩
              obtain ⟨rfl, rfl⟩ := List.cons_eq_cons.mp heq
              exact h
          · refine iff_of_false (by simp) ?_
            rintro ⟨t', text', heq, hfits', -⟩
            obtain ⟨rfl, rfl⟩ := List.cons_eq_cons.mp heq
            exact hfits hfits'

theorem matchLoop_iff (re text : List Byte) :
    matchLoop re text = true ↔ ∃ pre rest, text = pre ++ rest ∧ Here re rest := by
  induction text with
  | nil =>
    rw [matchLoop, matchhere_iff]
    constructor
    · intro h
      exact ⟨[], [], rfl, h⟩
    · rintro ⟨pre, rest, hnil, h⟩
      obtain ⟨rfl, rfl⟩ := List.append_eq_nil_iff.mp hnil.symm
      exact h
  | cons t text ih =>
    rw [matchLoop]
    split_ifs with hhere
    · exact iff_of_true rfl ⟨[], t :: text, rfl, (matchhere_iff re _).mp hhere⟩
    · rw [ih]
      constructor
      · rintro ⟨pre, rest, rfl, h⟩
        exact ⟨t :: pre, rest, rfl, h⟩
      · rintro ⟨pre, rest, heq, h⟩
        cases pre with
        | nil => exact absurd ((matchhere_iff re _).mpr (heq ▸ h)) hhere
        | cons b pre =>
          obtain ⟨rfl, rfl⟩ := List.cons_eq_cons.mp heq
          exact ⟨pre, rest, rfl, h⟩

end Match

theorem matchText_iff (re text : List Byte) :
    matchText re text = true ↔
      ∃ pre mid post, text = pre ++ mid ++ post ∧ mid ∈ language (unended (unrooted re)) ∧
        (re.head? = some caret → pre = []) ∧
        ((unrooted re).getLast? = some dollar → post = []) := by
  rw [matchText, unrooted]
  split_ifs with hroot
  · rw [matchhere_iff]
    constructor
    · rintro ⟨mid, post, rfl, hmid, hpost⟩
      exact ⟨[], mid, post, rfl, hmid, fun _ => rfl, hpost⟩
    · rintro ⟨pre, mid, post, rfl, hmid, hpre, hpost⟩
      exact ⟨mid, post, by rw [hpre hroot]; rfl, hmid, hpost⟩
  · rw [matchLoop_iff]
    constructor
    · rintro ⟨pre, _, rfl, mid, post, rfl, hmid, hpost⟩
      exact ⟨pre, mid, post, (List.append_assoc pre mid post).symm, hmid,
        fun h => absurd h hroot, hpost⟩
    · rintro ⟨pre, mid, post, rfl, hmid, -, hpost⟩
      exact ⟨pre, mid ++ post, List.append_assoc pre mid post, mid, post, rfl, hmid, hpost⟩

end Xv6Prng.Grep
