/-
  `isolate` in whole-input mode (`Wireform.Parser`, `parseByteString`).

  A parser is handed the end of its window and the cursor.  A bounds check that
  fails against the window reads the end of the input again, and where it passes
  against that, the parser goes on with this end.

  * `Inside`: no check of a run passes that way;
  * `isolate_confines`: then `isolate n p` does what `p` and `eof` do on the
    first `n` bytes alone; for all `p`, it does so only where there are no more.
-/
import Mathlib.Tactic.Common

namespace Wireform.PureMode

/-- What a parser comes to: a value and the cursor behind it, or no value. -/
inductive Res (ε α : Type) where
  | ok (a : α) (s : Nat)
  | fail
  | err (e : ε)

/-- The parsers that are built from the combinators.  `withAnyWord n` stands for
    `withAnyWord8` to `withAnyWord64`. -/
inductive Parser (ε : Type) : Type → Type 1 where
  | pure {α : Type} (a : α) : Parser ε α
  | bind {α β : Type} (p : Parser ε α) (f : α → Parser ε β) : Parser ε β
  | empty {α : Type} : Parser ε α
  | err {α : Type} (e : ε) : Parser ε α
  | withAnyWord {α : Type} (n : Nat) (p : List UInt8 → Parser ε α) : Parser ε α
  | takeBs (total : Nat) : Parser ε (List UInt8)
  | orElse {α : Type} (p q : Parser ε α) : Parser ε α
  | lookahead {α : Type} (p : Parser ε α) : Parser ε α
  | withError {α : Type} (handler : ε → Parser ε α) (p : Parser ε α) : Parser ε α
  | many {α : Type} (p : Parser ε α) : Parser ε (List α)
  | eof : Parser ε Unit
  | isolate {α : Type} (n : Nat) (p : Parser ε α) : Parser ε α

variable {ε α β : Type}

/-! ## Running a parser -/

/-- `withEnsure#`: the window first, then the end of the input. -/
def withEnsure (buf : List UInt8) (n : Nat) (p : Nat → Nat → Option (Res ε α)) (eob s : Nat) :
    Option (Res ε α) :=
  if (n : Int) ≤ eob - s then p eob s
  else if (n : Int) ≤ buf.length - s then p buf.length s
  else some .fail

def slice (buf : List UInt8) (s n : Nat) : List UInt8 := (buf.drop s).take n

/-- The loop of `many`; `none` when it does not end within the fuel. -/
def many.go (f : Nat → Option (Res ε α)) : Nat → Nat → Option (Res ε (List α))
  | 0, _ => none
  | fuel + 1, s =>
    match f s with
    | some (.ok a s') =>
      match many.go f fuel s' with
      | some (.ok as s'') => some (.ok (a :: as) s'')
      | x => x
    | some .fail => some (.ok [] s)
    | some (.err e) => some (.err e)
    | none => none

attribute [grind =] many.go

namespace Parser

/-- A run on `buf`, in the window up to `eob`, at `s`; `none` when it never ends. -/
def run : {α : Type} → Parser ε α → List UInt8 → Nat → Nat → Option (Res ε α)
  | _, pure a, _, _, s => some (.ok a s)
  | _, bind p f, buf, eob, s =>
    match p.run buf eob s with
    | some (.ok a s') => (f a).run buf eob s'
    | some .fail => some .fail
    | some (.err e) => some (.err e)
    | none => none
  | _, empty, _, _, _ => some .fail
  | _, err e, _, _, _ => some (.err e)
  | _, withAnyWord n p, buf, eob, s =>
    withEnsure buf n (fun eob s => (p (slice buf s n)).run buf eob (s + n)) eob s
  | _, takeBs total, buf, eob, s =>
    if total = 0 then some (.ok [] s)
    else withEnsure buf total (fun _ s => some (.ok (slice buf s total) (s + total))) eob s
  | _, orElse p q, buf, eob, s =>
    match p.run buf eob s with
    | some .fail => q.run buf eob s
    | x => x
  | _, lookahead p, buf, eob, s =>
    match p.run buf eob s with
    | some (.ok a _) => some (.ok a s)
    | x => x
  | _, withError handler p, buf, eob, s =>
    match p.run buf eob s with
    | some (.err e) => (handler e).run buf eob s
    | x => x
  | _, many p, buf, eob, s => many.go (p.run buf eob) (buf.length + 1 - s) s
  | _, eof, _, eob, s => if eob = s then some (.ok () s) else some .fail
  | _, isolate n p, buf, eob, s =>
    withEnsure buf n (fun _ s =>
      match p.run buf (s + n) s with
      | some (.ok a s') => if s' = s + n then some (.ok a s') else some .fail
      | x => x) eob s

/-- `parseByteString`, with the cursor. -/
def parse (p : Parser ε α) (bs : List UInt8) : Option (Res ε α) := p.run bs bs.length 0

def anyWord8 : Parser ε UInt8 := withAnyWord 1 fun bs => pure (bs.headD 0)

/-- `p <* eof` -/
def thenEof (p : Parser ε α) : Parser ε α := p.bind fun a => eof.bind fun _ => pure a

end Parser

open Wireform.PureMode.Parser

/-! ## Runs that stay inside -/

/-- A bounds check that passes against the window, or fails against the end of
    the input too. -/
def EnsureInside (buf : List UInt8) (n : Nat) (rest : Prop) (eob s : Nat) : Prop :=
  if (n : Int) ≤ eob - s then rest else ¬ (n : Int) ≤ buf.length - s

/-- Every iteration of the loop stays inside. -/
def many.Inside (f : Nat → Option (Res ε α)) (inside : Nat → Prop) : Nat → Nat → Prop
  | 0, _ => True
  | fuel + 1, s => inside s ∧ ∀ a s', f s = some (.ok a s') → many.Inside f inside fuel s'

attribute [grind =] run

/-- No bounds check of the run fails against its window and passes against the
    end of the input. -/
def Inside (buf : List UInt8) : {α : Type} → Parser ε α → Nat → Nat → Prop
  | _, .bind p f, eob, s => Inside buf p eob s ∧ ∀ a s', p.run buf eob s = some (.ok a s') → Inside buf (f a) eob s'
  | _, .withAnyWord n p, eob, s => EnsureInside buf n (Inside buf (p (slice buf s n)) eob (s + n)) eob s
  | _, .takeBs total, eob, s => EnsureInside buf total True eob s
  | _, .orElse p q, eob, s => Inside buf p eob s ∧ (p.run buf eob s = some .fail → Inside buf q eob s)
  | _, .lookahead p, eob, s => Inside buf p eob s
  | _, .withError handler p, eob, s =>
    Inside buf p eob s ∧ ∀ e, p.run buf eob s = some (.err e) → Inside buf (handler e) eob s
  | _, .many p, eob, s => many.Inside (p.run buf eob) (Inside buf p eob) (buf.length + 1 - s) s
  | _, .isolate n p, eob, s => EnsureInside buf n (Inside buf p (s + n) s) eob s
  | _, _, _, _ => True

/-- `isolate n p` does what `p` and `eof` do on the first `n` bytes alone. -/
def Confines (n : Nat) (bs : List UInt8) (p : Parser ε α) : Prop :=
  (isolate n p).parse bs = p.thenEof.parse (bs.take n)

/-! ## The cursor -/

theorem withEnsure_ok {buf : List UInt8} {n : Nat} {p : Nat → Nat → Option (Res ε α)} {eob s s' : Nat} {a : α}
    (he : eob ≤ buf.length) (h : withEnsure buf n p eob s = some (.ok a s')) :
    s + n ≤ buf.length ∧ ∃ eob' ≤ buf.length, p eob' s = some (.ok a s') := by
  unfold withEnsure at h
  split_ifs at h
  · exact ⟨by omega, eob, he, h⟩
  · exact ⟨by omega, buf.length, Nat.le_refl _, h⟩
  · cases h

theorem many_go_ok {f : Nat → Option (Res ε α)} {m : Nat}
    (hf : ∀ s a s', s ≤ m → f s = some (.ok a s') → s ≤ s' ∧ s' ≤ m) (fuel : Nat) :
    ∀ {s as s'}, s ≤ m → many.go f fuel s = some (.ok as s') → s ≤ s' ∧ s' ≤ m := by
  induction fuel with
  | zero => exact fun _ h => nomatch h
  | succ fuel ih =>
    intro s as s' hs h
    rw [many.go] at h
    split at h
    · rename_i a s₁ hfirst
      obtain ⟨hle, hm⟩ := hf s a s₁ hs hfirst
      split at h
      · rename_i as s₂ hrest
        cases h
        exact ⟨Nat.le_trans hle (ih hm hrest).1, (ih hm hrest).2⟩
      · rename_i hnot
        exact absurd h (hnot _ _)
    · cases h
      exact ⟨Nat.le_refl s, hs⟩
    · cases h
    · cases h

/-- The cursor never goes back, and never beyond the input. -/
theorem run_ok_bounds (buf : List UInt8) (p : Parser ε α) : ∀ {eob s : Nat} {a : α} {s' : Nat}, eob ≤ buf.length →
    s ≤ buf.length → p.run buf eob s = some (.ok a s') → s ≤ s' ∧ s' ≤ buf.length := by
  induction p with
  | pure a => rintro eob s _ _ _ hs ⟨⟩; exact ⟨Nat.le_refl s, hs⟩
  | bind p f ihp ihf =>
    intro eob s b s' he hs h
    rw [run] at h
    split at h
    · rename_i a s₁ hp
      obtain ⟨hle, hs₁⟩ := ihp he hs hp
      exact ⟨Nat.le_trans hle (ihf a he hs₁ h).1, (ihf a he hs₁ h).2⟩
    all_goals cases h
  | empty => exact fun _ _ h => nomatch h
  | err e => exact fun _ _ h => nomatch h
  | withAnyWord n p ih =>
    intro eob s a s' he hs h
    rw [run] at h
    obtain ⟨hn, eob', he', hp⟩ := withEnsure_ok he h
    obtain ⟨hle, hs'⟩ := ih _ he' hn hp
    exact ⟨Nat.le_trans (Nat.le_add_right s n) hle, hs'⟩
  | takeBs total =>
    intro eob s a s' he hs h
    rw [run] at h
    split at h
    · cases h
      exact ⟨Nat.le_refl s, hs⟩
    · obtain ⟨hn, _, _, hp⟩ := withEnsure_ok he h
      cases hp
      exact ⟨Nat.le_add_right s total, hn⟩
  | orElse p q ihp ihq =>
    intro eob s a s' he hs h
    rw [run] at h
    split at h
    · exact ihq he hs h
    · exact ihp he hs h
  | lookahead p ih =>
    intro eob s a s' he hs h
    rw [run] at h
    split at h
    · cases h
      exact ⟨Nat.le_refl s, hs⟩
    · exact ih he hs h
  | withError handler p ihh ihp =>
    intro eob s a s' he hs h
    rw [run] at h
    split at h
    · exact ihh _ he hs h
    · exact ihp he hs h
  | many p ih =>
    intro eob s a s' he hs h
    rw [run] at h
    exact many_go_ok (fun _ _ _ hs hp => ih he hs hp) _ hs h
  | eof =>
    intro eob s a s' he hs h
    rw [run] at h
    split at h
    · cases h
      exact ⟨Nat.le_refl s, hs⟩
    · cases h
  | isolate n p ih =>
    intro eob s a s' he hs h
    rw [run] at h
    obtain ⟨hn, _, _, hp⟩ := withEnsure_ok he h
    split at hp
    · rename_i a₁ s₁ hrun
      split at hp
      · cases hp
        exact ih hn hs hrun
      · cases hp
    · exact ih hn hs hp

/-! ## Inside a window -/

/-- The same result, with the cursor in the window. -/
def Agrees (eob : Nat) (x y : Option (Res ε α)) : Prop := x = y ∧ ∀ a s, x = some (.ok a s) → s ≤ eob

variable {buf : List UInt8} {n : Nat}

theorem withEnsure_agrees (hn : n ≤ buf.length) {k eob s : Nat} {rest : Prop} {p q : Nat → Nat → Option (Res ε α)}
    (h : EnsureInside buf k rest eob s) (hpq : rest → s + k ≤ eob → Agrees eob (p eob s) (q eob s)) :
    Agrees eob (withEnsure buf k p eob s) (withEnsure (buf.take n) k q eob s) := by
  unfold EnsureInside at h
  unfold withEnsure
  split_ifs at h ⊢ with hwindow hend
  · exact hpq h (by omega)
  · rw [List.length_take_of_le hn] at hend
    omega
  · exact ⟨rfl, nofun⟩

theorem slice_take {s k : Nat} (h : s + k ≤ n) : slice (buf.take n) s k = slice buf s k := by
  rw [slice, slice, List.drop_take, List.take_take, Nat.min_eq_left (by omega)]

/-- An iteration that does not move goes on for ever. -/
theorem many_go_stuck {f : Nat → Option (Res ε α)} {a : α} {s : Nat} (h : f s = some (.ok a s)) (fuel : Nat) :
    many.go f fuel s = none := by
  induction fuel with
  | zero => rfl
  | succ fuel ih => rw [many.go, h]; simp only [ih]

theorem many_go_cons {f : Nat → Option (Res ε α)} {a : α} {s s' : Nat} (h : f s = some (.ok a s')) (fuel : Nat) :
    many.go f (fuel + 1) s =
      match many.go f fuel s' with
      | some (.ok as s'') => some (.ok (a :: as) s'')
      | x => x := by
  rw [many.go, h]

/-- The loops agree, and each of them has fuel enough. -/
theorem many_go_agrees {f g : Nat → Option (Res ε α)} {inside : Nat → Prop} {eob : Nat}
    (hfg : ∀ s ≤ eob, inside s → Agrees eob (f s) (g s)) (hf : ∀ s a s', s ≤ eob → f s = some (.ok a s') → s ≤ s')
    (fuel : Nat) :
    ∀ {fuel' s : Nat}, s ≤ eob → eob + 1 - s ≤ fuel → eob + 1 - s ≤ fuel' → many.Inside f inside fuel s →
      Agrees eob (many.go f fuel s) (many.go g fuel' s) := by
  induction fuel with
  | zero => intro fuel' s hs hfuel; omega
  | succ fuel ih =>
    intro fuel' s hs hfuel hfuel' hinside
    obtain ⟨fuel', rfl⟩ : ∃ k, fuel' = k + 1 := ⟨fuel' - 1, by omega⟩
    obtain ⟨heq, hle⟩ := hfg s hs hinside.1
    cases hfirst : f s with
    | none => rw [many.go, many.go, ← heq, hfirst]; exact ⟨rfl, nofun⟩
    | some r =>
      cases r with
      | fail =>
        rw [many.go, many.go, ← heq, hfirst]
        refine ⟨rfl, ?_⟩
        rintro _ _ ⟨⟩
        exact hs
      | err e => rw [many.go, many.go, ← heq, hfirst]; exact ⟨rfl, nofun⟩
      | ok a s' =>
        have hs' := hle a s' hfirst
        rcases Nat.eq_or_lt_of_le (hf s a s' hs hfirst) with rfl | hlt
        · rw [many_go_stuck hfirst, many_go_stuck (heq ▸ hfirst)]
          exact ⟨rfl, nofun⟩
        · have hgo : Agrees eob (many.go f fuel s') (many.go g fuel' s') :=
            ih hs' (by omega) (by omega) (hinside.2 a s' hfirst)
          obtain ⟨hrest, hrestle⟩ := hgo
          rw [many_go_cons hfirst, many_go_cons (heq ▸ hfirst), ← hrest]
          refine ⟨rfl, fun as s'' h => ?_⟩
          split at h
          · cases h
            rename_i hgo
            exact hrestle _ _ hgo
          · rename_i hnot
            exact absurd h (hnot _ _)

theorem many_inside_trivial (f : Nat → Option (Res ε α)) (fuel : Nat) : ∀ s, many.Inside f (fun _ => True) fuel s := by
  induction fuel with
  | zero => exact fun _ => trivial
  | succ fuel ih => exact fun s => ⟨trivial, fun _ s' _ => ih s'⟩

/-- **A run that stays inside does not see what is behind the window.** -/
theorem run_agrees (hn : n ≤ buf.length) (p : Parser ε α) : ∀ {eob s : Nat}, s ≤ eob → eob ≤ n →
    Inside buf p eob s → Agrees eob (p.run buf eob s) (p.run (buf.take n) eob s) := by
  induction p with
  | pure a =>
    intro eob s hs _ _
    refine ⟨rfl, ?_⟩
    rintro _ _ ⟨⟩
    exact hs
  | bind p f ihp ihf =>
    intro eob s hs he h
    obtain ⟨heq, hle⟩ := ihp hs he h.1
    rw [run, run, ← heq]
    split
    · rename_i a s' hp
      exact ihf a (hle a s' hp) he (h.2 a s' hp)
    all_goals exact ⟨rfl, nofun⟩
  | empty => exact fun _ _ _ => ⟨rfl, nofun⟩
  | err e => exact fun _ _ _ => ⟨rfl, nofun⟩
  | withAnyWord k p ih =>
    intro eob s hs he h
    rw [run, run]
    refine withEnsure_agrees hn h fun hrest hk => ?_
    rw [slice_take (Nat.le_trans hk he)]
    exact ih _ hk he hrest
  | takeBs total =>
    intro eob s hs he h
    rw [run, run]
    split
    · refine ⟨rfl, ?_⟩
      rintro _ _ ⟨⟩
      exact hs
    · refine withEnsure_agrees hn h fun _ hk => ⟨?_, ?_⟩
      · rw [slice_take (Nat.le_trans hk he)]
      · rintro _ _ ⟨⟩
        exact hk
  | orElse p q ihp ihq =>
    intro eob s hs he h
    have hp := ihp hs he h.1
    rw [run, run, ← hp.1]
    split
    · rename_i hfail
      exact ihq hs he (h.2 hfail)
    · exact ⟨rfl, hp.2⟩
  | lookahead p ih =>
    intro eob s hs he h
    have hp := ih hs he h
    rw [run, run, ← hp.1]
    split
    · refine ⟨rfl, ?_⟩
      rintro _ _ ⟨⟩
      exact hs
    · exact ⟨rfl, hp.2⟩
  | withError handler p ihh ihp =>
    intro eob s hs he h
    have hp := ihp hs he h.1
    rw [run, run, ← hp.1]
    split
    · rename_i e herr
      exact ihh e hs he (h.2 e herr)
    · exact ⟨rfl, hp.2⟩
  | many p ih =>
    intro eob s hs he h
    rw [run, run]
    refine many_go_agrees (fun s hs hin => ih hs he hin) (fun _ _ _ hs hp => ?_) _ hs (by omega) ?_ h
    · exact (run_ok_bounds buf p (Nat.le_trans he hn) (by omega) hp).1
    · rw [List.length_take_of_le hn]
      omega
  | eof =>
    intro eob s hs _ _
    refine ⟨rfl, fun a s' h => ?_⟩
    rw [run] at h
    split at h
    · cases h
      exact hs
    · cases h
  | isolate k p ih =>
    intro eob s hs he h
    rw [run, run]
    refine withEnsure_agrees hn h fun hrest hk => ?_
    have hp := ih (Nat.le_add_right s k) (Nat.le_trans hk he) hrest
    rw [← hp.1]
    split
    · split
      · refine ⟨rfl, ?_⟩
        rintro _ _ ⟨⟩
        omega
      · exact ⟨rfl, nofun⟩
    · exact ⟨rfl, fun a s' hok => Nat.le_trans (hp.2 a s' hok) hk⟩

/-! ## `isolate` -/

theorem parse_isolate {bs : List UInt8} (hn : n ≤ bs.length) (p : Parser ε α) :
    (isolate n p).parse bs =
      match p.run bs n 0 with
      | some (.ok a s') => if s' = n then some (.ok a s') else some .fail
      | x => x := by
  rw [parse, run, withEnsure, if_pos (by omega), Nat.zero_add]

theorem parse_thenEof {bs : List UInt8} (hn : n ≤ bs.length) (p : Parser ε α) :
    p.thenEof.parse (bs.take n) =
      match p.run (bs.take n) n 0 with
      | some (.ok a s') => if s' = n then some (.ok a s') else some .fail
      | x => x := by
  rw [parse, thenEof, run, List.length_take_of_le hn]
  cases p.run (bs.take n) n 0 with
  | none => rfl
  | some r =>
    cases r with
    | ok a s' =>
      simp only [run]
      by_cases h : s' = n
      · rw [if_pos h.symm, if_pos h]
      · rw [if_neg (Ne.symm h), if_neg h]
    | fail => rfl
    | err e => rfl

theorem confines_of_run_eq {bs : List UInt8} (hn : n ≤ bs.length) {p : Parser ε α}
    (h : p.run bs n 0 = p.run (bs.take n) n 0) : Confines n bs p := by
  rw [Confines, parse_isolate hn, parse_thenEof hn, h]

/-- One byte too many, or else what is in the window. -/
def tooMany (n : Nat) : Parser ε (List UInt8) := orElse (takeBs (n + 1)) (takeBs n)

theorem tooMany_not_confined {bs : List UInt8} (hn : n < bs.length) :
    ¬ Confines n bs (tooMany n : Parser ε (List UInt8)) := by
  have hwhole : (tooMany n : Parser ε (List UInt8)).run bs n 0 = some (.ok (slice bs 0 (n + 1)) (0 + (n + 1))) := by
    rw [tooMany, run, run, if_neg (Nat.succ_ne_zero n), withEnsure, if_neg (by omega), if_pos (by omega)]
  have hlong : (takeBs (n + 1) : Parser ε (List UInt8)).run (bs.take n) n 0 = some .fail := by
    rw [run, if_neg (Nat.succ_ne_zero n), withEnsure, List.length_take_of_le (Nat.le_of_lt hn), if_neg (by omega), if_neg (by omega)]
  have hwindow : ∃ a, (tooMany n : Parser ε (List UInt8)).run (bs.take n) n 0 = some (.ok a n) := by
    rw [tooMany, run, hlong]
    by_cases h0 : n = 0
    · subst h0
      exact ⟨[], rfl⟩
    · refine ⟨slice (bs.take n) 0 n, ?_⟩
      change run (takeBs n) (bs.take n) n 0 = _
      rw [run, if_neg h0, withEnsure, if_pos (by omega), Nat.zero_add]
  obtain ⟨a, ha⟩ := hwindow
  rw [Confines, parse_isolate (Nat.le_of_lt hn), parse_thenEof (Nat.le_of_lt hn), hwhole, ha]
  simp only [if_neg (show ¬ 0 + (n + 1) = n by omega), if_pos]
  exact nofun

/-- **What `isolate` confines.** -/
theorem isolate_confines (n : Nat) (bs : List UInt8) (hn : n ≤ bs.length) :
    (∀ (α : Type) (p : Parser ε α), Inside bs p n 0 → Confines n bs p) ∧
      ((∀ (α : Type) (p : Parser ε α), Confines n bs p) ↔ bs.length = n) := by
  refine ⟨fun α p h => confines_of_run_eq hn (run_agrees hn p (Nat.zero_le n) (Nat.le_refl n) h).1, fun h => ?_,
    fun h α p => confines_of_run_eq hn ?_⟩
  · by_contra hne
    exact tooMany_not_confined (Nat.lt_of_le_of_ne hn (Ne.symm hne)) (h _ (tooMany n))
  · rw [List.take_of_length_le (Nat.le_of_eq h)]

theorem isolate_confines_byte : Confines 1 [5, 6] (anyWord8 : Parser Unit UInt8) :=
  (isolate_confines 1 [5, 6] (by decide)).1 _ anyWord8 trivial

/-- The bytes behind the window are read. -/
theorem many_not_confined : ¬ ∀ (n : Nat) (bs : List UInt8), n ≤ bs.length →
    ∀ (α : Type) (p : Parser Unit α), Confines n bs p := by
  intro h
  have hrun : (isolate 1 anyWord8.many : Parser Unit (List UInt8)).parse [1, 2, 3] = some .fail := rfl
  have heof : (anyWord8.many : Parser Unit (List UInt8)).thenEof.parse [1] = some (.ok [1] 1) := rfl
  cases hrun.symm.trans ((h 1 [1, 2, 3] (by decide) _ anyWord8.many).trans heof)

end Wireform.PureMode
