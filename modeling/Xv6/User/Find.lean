import Xv6.Common.Wildcard
import Xv6.User.Ulib

/-!
# Find — the wildcard matcher of `find.c`

`match` compares the part of the pattern before the first `*` with the beginning of the name and the part behind it
with the end of the name, each on its own.  The end is looked for at an offset computed from the two lengths, so
pointers here are offsets into an object, and can lie before its first byte.
-/

namespace Xv6.Find

open Ulib (Fault strlen strchr strcmp cstr)
open Common (Matches)

def star : UInt8 := 42

structure Ptr where
  obj : List UInt8
  off : ℤ

def Ptr.get (s : Ptr) (i : ℕ) : Except Fault UInt8 :=
  if 0 ≤ s.off + i then
    match s.obj[(s.off + i).toNat]? with
    | some c => .ok c
    | none => .error .outside
  else .error .outside

def strncmpLoop (s1 s2 : Ptr) : ℕ → ℕ → Except Fault ℤ
  | _, 0 => .ok 0
  | i, n + 1 => do
      let a ← s1.get i
      let b ← s2.get i
      if a ≠ b ∨ a = 0 ∨ b = 0 then return a.toNat - b.toNat
      else strncmpLoop s1 s2 (i + 1) n

def strncmp (s1 s2 : Ptr) (n : ℤ) : Except Fault ℤ :=
  strncmpLoop s1 s2 0 n.toNat

/-- The condition `n && strncmp(s1, s2, n) != 0`. -/
def differs (s1 s2 : Ptr) (n : ℤ) : Except Fault Bool :=
  if n = 0 then .ok false
  else do
    let r ← strncmp s1 s2 n
    return decide (r ≠ 0)

def matchPattern (name pattern : List UInt8) : Except Fault ℤ := do
  let found ← strchr pattern star
  let nlen ← strlen name
  let plen ← strlen pattern
  match found with
  | none =>
    let r ← strcmp name pattern
    return if r = 0 then 1 else 0
  | some prefixLen =>
    let first ← Ptr.get ⟨pattern, 0⟩ 0
    if plen = 1 ∧ first = star then return 1
    let suffixLen : ℤ := plen - prefixLen - 1
    -- prefix check
    if ← differs ⟨name, 0⟩ ⟨pattern, 0⟩ prefixLen then return 0
    -- suffix check
    if ← differs ⟨name, nlen - suffixLen⟩ ⟨pattern, prefixLen + 1⟩ suffixLen then return 0
    return 1

/-! ## `strncmp` -/

section Strncmp

variable {s1 s2 : Ptr} {u v a b : List UInt8} {i n : ℕ}

/-- The bytes from `s[i]` on are those of `u`. -/
def Ptr.Holds (s : Ptr) (i : ℕ) (u : List UInt8) : Prop :=
  0 ≤ s.off + i ∧ s.obj.drop (s.off + i).toNat = u

theorem Ptr.Holds.get {c : UInt8} (h : s1.Holds i (c :: u)) : s1.get i = .ok c := by
  have hget : s1.obj[(s1.off + i).toNat]? = some c := by
    rw [← List.head?_drop, h.2, List.head?_cons]
  rw [Ptr.get, if_pos h.1, hget]

theorem Ptr.Holds.next {c : UInt8} (h : s1.Holds i (c :: u)) : s1.Holds (i + 1) u := by
  have hpos := h.1
  refine ⟨by push_cast; omega, ?_⟩
  have hoff : (s1.off + (i + 1 : ℕ)).toNat = (s1.off + i).toNat + 1 := by push_cast; omega
  rw [hoff, ← List.drop_drop, h.2, List.drop_one, List.tail_cons]

/-- The first `n` bytes of `b` are compared with the string `a`. -/
theorem strncmpLoop_eq (h1 : s1.Holds i (a ++ 0 :: u)) (h2 : s2.Holds i (b ++ v)) (ha : 0 ∉ a) (hb : 0 ∉ b)
    (hn : n = b.length) : ∃ r, strncmpLoop s1 s2 i n = .ok r ∧ (r = 0 ↔ b <+: a) := by
  induction b generalizing i n a with
  | nil =>
    subst hn
    exact ⟨0, rfl, by simp⟩
  | cons d b ih =>
    subst hn
    rw [List.mem_cons, not_or] at hb
    have hd := h2.get
    cases a with
    | nil =>
      -- the string ends here, and `d` is not its terminator
      refine ⟨_, ?_, Ulib.toNat_sub_eq_zero_iff.trans (b := 0 = d) ?_⟩
      · rw [List.length_cons, strncmpLoop, h1.get, hd]
        exact if_pos (Or.inl hb.1)
      · simp [hb.1]
    | cons c a =>
      rw [List.mem_cons, not_or] at ha
      by_cases hcd : c = d
      · subst hcd
        rcases ih h1.next h2.next ha.2 hb.2 rfl with ⟨r, hr, hiff⟩
        refine ⟨r, ?_, by rw [hiff, List.prefix_cons_inj]⟩
        rw [List.length_cons, strncmpLoop, h1.get, hd]
        refine (if_neg ?_).trans hr
        simp [Ne.symm ha.1]
      · refine ⟨_, ?_, Ulib.toNat_sub_eq_zero_iff.trans (b := c = d) ?_⟩
        · rw [List.length_cons, strncmpLoop, h1.get, hd]
          exact if_pos (Or.inl hcd)
        · simp [hcd, Ne.symm hcd]

theorem strncmp_outside {k : ℤ} (hoff : s1.off < 0) (hk : 0 < k) : strncmp s1 s2 k = .error .outside := by
  obtain ⟨n, hn⟩ : ∃ n, k.toNat = n + 1 := ⟨k.toNat - 1, by omega⟩
  have hget : s1.get 0 = .error .outside := by
    rw [Ptr.get, if_neg]
    push_cast
    omega
  rw [strncmp, hn, strncmpLoop, hget]
  rfl

end Strncmp

/-! ## Names and patterns -/

section Match

variable {name pattern p s m : List UInt8}

theorem matchPattern_literal (hname : 0 ∉ name) (hp : 0 ∉ p) (hstar : star ∉ p) :
    ∃ r, matchPattern (cstr name) (cstr p) = .ok r ∧ (r ≠ 0 ↔ name = p) := by
  rcases Ulib.strcmp_eq (r := []) (u := []) hname hp with ⟨v, hv, hiff⟩
  refine ⟨if v = 0 then 1 else 0, ?_, ?_⟩
  · have hchr : strchr (cstr p) star = .ok none := Ulib.strchr_of_notMem hp hstar
    have hcmp : strcmp (cstr name) (cstr p) = .ok v := hv
    simp only [matchPattern, hchr, Ulib.strlen_cstr hname, Ulib.strlen_cstr hp, hcmp, Ulib.ok_bind]
    rfl
  · rw [← hiff]
    split_ifs with h <;> simp [h]

theorem differs_eq {s1 s2 : Ptr} {a b u v : List UInt8} {n : ℤ} (h1 : s1.Holds 0 (a ++ 0 :: u))
    (h2 : s2.Holds 0 (b ++ v)) (ha : 0 ∉ a) (hb : 0 ∉ b) (hn : n = b.length) :
    differs s1 s2 n = .ok (decide ¬ b <+: a) := by
  subst hn
  rcases strncmpLoop_eq h1 h2 ha hb rfl with ⟨r, hr, hiff⟩
  unfold differs
  split_ifs with h
  · have hnil : b = [] := List.eq_nil_of_length_eq_zero (by omega)
    simp [hnil]
  · rw [strncmp, Int.toNat_natCast, hr]
    show Except.ok (decide (r ≠ 0)) = _
    simp only [ne_eq, hiff]

/-- The end of the name is looked for before its first byte. -/
theorem differs_outside {s2 : Ptr} (h : name.length < s.length) :
    differs ⟨cstr name, name.length - s.length⟩ s2 s.length = .error .outside := by
  rw [differs, if_neg (by omega), strncmp_outside (show (name.length : ℤ) - s.length < 0 by omega) (by omega)]
  rfl

theorem differs_end {pat : List UInt8} (hname : 0 ∉ name) (hs : 0 ∉ s) (h : s.length ≤ name.length)
    (hpat : pat = p ++ star :: (s ++ [0])) :
    differs ⟨cstr name, name.length - s.length⟩ ⟨pat, p.length + 1⟩ s.length = .ok (decide ¬ s <:+ name) := by
  have hlast : Ptr.Holds ⟨cstr name, name.length - s.length⟩ 0 (name.drop (name.length - s.length) ++ 0 :: []) := by
    refine ⟨show (0 : ℤ) ≤ name.length - s.length + (0 : ℕ) by omega, ?_⟩
    have hoff : ((name.length : ℤ) - s.length + (0 : ℕ)).toNat = name.length - s.length := by omega
    rw [hoff, cstr, List.drop_append_of_le_length (Nat.sub_le _ _)]
  have hrest : Ptr.Holds ⟨pat, p.length + 1⟩ 0 (s ++ [0]) := by
    refine ⟨show (0 : ℤ) ≤ p.length + 1 + (0 : ℕ) by omega, ?_⟩
    have hoff : ((p.length : ℤ) + 1 + (0 : ℕ)).toNat = p.length + 1 := by omega
    rw [hoff, hpat, List.drop_length_add_append, List.drop_one, List.tail_cons]
  have hsame : s <+: name.drop (name.length - s.length) ↔ s <:+ name := by
    rw [List.suffix_iff_eq_drop]
    refine ⟨fun hprefix => hprefix.eq_of_length ?_, fun heq => heq ▸ List.prefix_refl _⟩
    rw [List.length_drop]
    omega
  rw [differs_eq hlast hrest (fun hmem => hname (List.mem_of_mem_drop hmem)) hs rfl]
  simp only [hsame]

theorem matchPattern_star (hname : 0 ∉ name) (hp : 0 ∉ p) (hs : 0 ∉ s) (hstar : star ∉ p) :
    matchPattern (cstr name) (cstr (p ++ star :: s)) = if p = [] ∧ s = [] then .ok 1
      else if p <+: name then
        if name.length < s.length then .error .outside
        else .ok (if s <:+ name then 1 else 0)
      else .ok 0 := by
  have hpattern : cstr (p ++ star :: s) = p ++ star :: (s ++ [0]) := by simp [cstr]
  have hnul : 0 ∉ p ++ star :: s := by simp [hp, hs, star]
  have hchr : strchr (cstr (p ++ star :: s)) star = .ok (some p.length) := by
    rw [hpattern, Ulib.strchr_append (by decide) hp hstar]
  obtain ⟨c, t, hct, hall⟩ : ∃ c t, cstr (p ++ star :: s) = c :: t ∧
      (((p ++ star :: s).length = 1 ∧ c = star) ↔ p = [] ∧ s = []) := by
    rw [hpattern]
    cases p with
    | nil => exact ⟨star, _, rfl, by simp⟩
    | cons c p => exact ⟨c, _, rfl, by simp⟩
  have hfirst : Ptr.get ⟨cstr (p ++ star :: s), 0⟩ 0 = .ok c := Ptr.Holds.get (u := t) ⟨Int.le_refl 0, hct⟩
  have hsuffixLen : ((p ++ star :: s).length : ℤ) - p.length - 1 = s.length := by
    simp only [List.length_append, List.length_cons]
    push_cast
    omega
  have hbegin : differs ⟨cstr name, 0⟩ ⟨cstr (p ++ star :: s), 0⟩ p.length = .ok (decide ¬ p <+: name) :=
    differs_eq (u := []) ⟨Int.le_refl 0, rfl⟩ ⟨Int.le_refl 0, hpattern⟩ hname hp rfl
  simp only [matchPattern, hchr, Ulib.strlen_cstr hname, Ulib.strlen_cstr hnul, Ulib.ok_bind, hfirst, hall,
    hsuffixLen, hbegin]
  by_cases hlone : p = [] ∧ s = []
  · rw [if_pos hlone, if_pos hlone]
    rfl
  rw [if_neg hlone, if_neg hlone]
  by_cases hpre : p <+: name
  case neg =>
    simp [hpre]
  rw [if_pos hpre]
  by_cases hshort : name.length < s.length
  · rw [differs_outside hshort, if_pos hshort]
    simp [hpre]
  · rw [differs_end hname hs (Nat.not_lt.1 hshort) hpattern, if_neg hshort]
    by_cases hend : s <:+ name
    · simp [hpre, hend]
    · simp [hpre, hend]

/-! ## Where the answer is right -/

/-- The forms of patterns that the comment of `match` lists, and two ends with a wildcard between them. -/
inductive Documented : List UInt8 → Prop
  | literal {p : List UInt8} (hp : star ∉ p) : Documented p
  | ends {p s : List UInt8} (hp : star ∉ p) (hs : star ∉ s) : Documented (p ++ star :: s)
  | middle {m : List UInt8} (hm : star ∉ m) : Documented (star :: (m ++ [star]))

/-- What `match` does not look at when it compares the two ends of the pattern. -/
inductive Overlooked (name : List UInt8) : List UInt8 → Prop
  /-- The name is shorter than what follows the first wildcard. -/
  | short {p s : List UInt8} (hp : star ∉ p) (hpre : p <+: name) (h : name.length < s.length) :
      Overlooked name (p ++ star :: s)
  /-- The two ends overlap in the name. -/
  | overlap {p s : List UInt8} (hp : star ∉ p) (hs : star ∉ s) (hpre : p <+: name) (hend : s <:+ name)
      (h : name.length < p.length + s.length) : Overlooked name (p ++ star :: s)
  /-- The second wildcard stands for something else than itself. -/
  | second {m : List UInt8} (hm : star ∉ m) (h : m <:+: name) (hend : ¬ (m ++ [star]) <:+ name) :
      Overlooked name (star :: (m ++ [star]))

theorem split_unique {c : UInt8} {p p' s s' : List UInt8} (hp : c ∉ p) (hp' : c ∉ p')
    (h : p ++ c :: s = p' ++ c :: s') : p = p' ∧ s = s' := by
  induction p generalizing p' with
  | nil =>
    cases p' with
    | nil => simpa using h
    | cons a p' =>
      rw [List.nil_append, List.cons_append, List.cons.injEq] at h
      exact absurd (h.1 ▸ List.mem_cons_self) hp'
  | cons a p ih =>
    cases p' with
    | nil =>
      rw [List.nil_append, List.cons_append, List.cons.injEq] at h
      exact absurd (h.1 ▸ List.mem_cons_self) hp
    | cons b p' =>
      rw [List.mem_cons, not_or] at hp hp'
      rw [List.cons_append, List.cons_append, List.cons.injEq] at h
      rcases ih hp.2 hp'.2 h.2 with ⟨rfl, rfl⟩
      exact ⟨by rw [h.1], rfl⟩

/-- The three ways, seen from the first wildcard. -/
theorem overlooked_star_iff (hstar : star ∉ p) : Overlooked name (p ++ star :: s) ↔ p <+: name ∧
        (name.length < s.length ∨ (star ∉ s ∧ s <:+ name ∧ name.length < p.length + s.length) ∨
          (p = [] ∧ ∃ m, star ∉ m ∧ s = m ++ [star] ∧ m <:+: name ∧ ¬ s <:+ name)) := by
  constructor
  · generalize hpat : p ++ star :: s = pat
    intro h
    cases h with
    | short hp' hpre hlen =>
      rcases split_unique hstar hp' hpat with ⟨rfl, rfl⟩
      exact ⟨hpre, .inl hlen⟩
    | overlap hp' hs' hpre hend hlen =>
      rcases split_unique hstar hp' hpat with ⟨rfl, rfl⟩
      exact ⟨hpre, .inr (.inl ⟨hs', hend, hlen⟩)⟩
    | @second m hm hfactor hend =>
      rcases split_unique hstar List.not_mem_nil hpat with ⟨rfl, rfl⟩
      exact ⟨List.nil_prefix, .inr (.inr ⟨rfl, m, hm, rfl, hfactor, hend⟩)⟩
  · rintro ⟨hpre, hlen | ⟨hs, hend, hlen⟩ | ⟨rfl, m, hm, rfl, hfactor, hend⟩⟩
    · exact .short hstar hpre hlen
    · exact .overlap hstar hs hpre hend hlen
    · exact .second hm hfactor hend

/-- `match` answers, and the answer is right. -/
def Right (name pattern : List UInt8) : Prop :=
  ∃ r, matchPattern (cstr name) (cstr pattern) = .ok r ∧ (r ≠ 0 ↔ Matches star pattern name)

theorem right_star_iff (hname : 0 ∉ name) (hp : 0 ∉ p) (hs : 0 ∉ s) (hstar : star ∉ p) :
    Right name (p ++ star :: s) ↔
      (p <+: name → s.length ≤ name.length ∧ (s <:+ name ↔ Matches star (p ++ star :: s) name)) := by
  rw [Right, matchPattern_star hname hp hs hstar]
  by_cases hlone : p = [] ∧ s = []
  · rcases hlone with ⟨rfl, rfl⟩
    have hall : Matches star [star] (name ++ []) := .wild name .nil
    rw [List.append_nil] at hall
    simp [hall]
  rw [if_neg hlone]
  by_cases hpre : p <+: name
  case neg =>
    have hno : ¬ Matches star (p ++ star :: s) name := fun h => hpre (h.begins hstar)
    simp [hpre, hno]
  by_cases hshort : name.length < s.length
  · simp [hpre, hshort, Nat.not_le.2 hshort]
  · by_cases hend : s <:+ name
    · simp [hpre, hshort, hend, Nat.not_lt.1 hshort]
    · simp [hpre, hshort, hend, Nat.not_lt.1 hshort]

end Match

/-- The answer of `match` is right, and found inside the two strings, unless the name is shorter than the end of the
pattern, or has its two ends in an overlap, or the pattern has a second wildcard that stands for something. -/
theorem matchPattern_right_iff {name pattern : List UInt8} (hname : 0 ∉ name) (hpattern : 0 ∉ pattern)
    (hdoc : Documented pattern) :
    (∃ r, matchPattern (cstr name) (cstr pattern) = .ok r ∧ (r ≠ 0 ↔ Matches star pattern name)) ↔
      ¬ Overlooked name pattern := by
  cases hdoc with
  | literal hp =>
    rcases matchPattern_literal hname hpattern hp with ⟨r, hr, hiff⟩
    refine iff_of_true ⟨r, hr, hiff.trans (Matches.literal_iff hp).symm⟩ fun h => ?_
    -- each of the overlooked patterns has a wildcard
    cases h <;> simp at hp
  | @ends p s hp hs =>
    have hnul : 0 ∉ p ∧ 0 ∉ s := by
      rw [List.mem_append, List.mem_cons, not_or, not_or] at hpattern
      exact ⟨hpattern.1, hpattern.2.2⟩
    refine (right_star_iff hname hnul.1 hnul.2 hp).trans ?_
    rw [overlooked_star_iff hp, Matches.ends_iff hp hs]
    have hlast : ∀ m, s ≠ m ++ [star] := by
      rintro m rfl
      simp at hs
    by_cases hpre : p <+: name
    case neg => simp [hpre]
    by_cases hend : s <:+ name
    · simp [hpre, hend, hs]
    · simp [hpre, hend, hs, hlast]
  | @middle m hm =>
    have hnul : 0 ∉ m ++ [star] := fun h => hpattern (List.mem_cons_of_mem _ h)
    refine (right_star_iff (p := []) hname List.not_mem_nil hnul List.not_mem_nil).trans ?_
    refine Iff.trans ?_ (not_congr (overlooked_star_iff (p := []) List.not_mem_nil)).symm
    have hmatch : Matches star ([] ++ star :: (m ++ [star])) name ↔ m <:+: name := Matches.factor_iff hm
    -- a name that ends in the literal text has it as a factor
    have hfactor : (m ++ [star]) <:+ name → m <:+: name := fun h =>
      (List.prefix_append m [star]).isInfix.trans h.isInfix
    rw [hmatch]
    by_cases hend : (m ++ [star]) <:+ name
    · simp [hend, hfactor hend]
    · simp [hend, hm]

/-- A name that has the two ends of the pattern, but not one after the other. -/
theorem not_matches_overlap : matchPattern (cstr [97, 98, 97]) (cstr [97, 98, 42, 98, 97]) = .ok 1 ∧
      Documented [97, 98, 42, 98, 97] ∧ ¬ Matches star [97, 98, 42, 98, 97] [97, 98, 97] := by
  have hends : star ∉ ([97, 98] : List UInt8) ∧ star ∉ ([98, 97] : List UInt8) := by decide
  refine ⟨rfl, .ends hends.1 hends.2, fun h => ?_⟩
  exact absurd ((Matches.ends_iff hends.1 hends.2).1 h).2.2 (by decide)

theorem matchPattern_right_txt : (∃ r, matchPattern (cstr [97, 46, 99]) (cstr [97, 42, 99]) = .ok r ∧
      (r ≠ 0 ↔ Matches star [97, 42, 99] [97, 46, 99])) ↔ ¬ Overlooked [97, 46, 99] [97, 42, 99] :=
  matchPattern_right_iff (by decide) (by decide) (.ends (p := [97]) (s := [99]) (by decide) (by decide))

end Xv6.Find
