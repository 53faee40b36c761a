import Mlog.Proofs.Steps

/-! # Runs of minus signs

    Two token lists can be the same but for the lengths of runs of minus signs.
    Parses of both lists can go side by side: at the same token, with the same
    faults, while one of them has more signs ahead than the other.  Only a parse
    within such a run has to take care: moving past one sign, it may leave the
    run on one side and not on the other.

    * `Stretched k a b`: two such lists.  The runs have three signs or more, but
      one at the front may have been read down to `k` of them.
    * `skipRun`: what is left of a list once the run at its front is passed.
      That is the same for both lists (`Stretched.afterRun`).
    * `ParseState.Beside k`: two parses side by side.
    * `ParseState.Clear`: they are side by side, and not within a run.
    * `ParseState.Along`: how two parses go on; either both move, or neither. -/

namespace Mlog

/-! ## Section 1: Token lists with longer runs -/

/-- A run of minus signs. -/
def minusRun (n : Nat) : List Token := List.replicate n (.symbol .minus)

/-- Two token lists are the same but for the lengths of runs of minus signs, which are three
    or more.  A run at the front may be of `k` signs only. -/
inductive Stretched : Nat → List Token → List Token → Prop
  | nil {k} : Stretched k [] []
  | cons {k a b} (t : Token) : Stretched 3 a b → Stretched k (t :: a) (t :: b)
  | run {k n m a b} : k ≤ n → k ≤ m → Stretched 3 a b →
      Stretched k (minusRun n ++ a) (minusRun m ++ b)

/-- The tokens after a run of one token, but for the last one. -/
def skipRun (token : Token) : List Token → List Token
  | t :: u :: ts => if t = token then skipRun token (u :: ts) else t :: u :: ts
  | ts => ts

theorem skipRun_minusRun (n : Nat) {a : List Token} (ha : a ≠ []) :
    skipRun (.symbol .minus) (minusRun n ++ a) = skipRun (.symbol .minus) a := by
  induction n with
  | zero => rfl
  | succ n ih =>
    obtain ⟨u, rest, hrest⟩ : ∃ u rest, minusRun n ++ a = u :: rest :=
      List.exists_cons_of_ne_nil (by simp [ha])
    have hsigns : minusRun (n + 1) ++ a = .symbol .minus :: (minusRun n ++ a) := rfl
    rw [hsigns, hrest, skipRun, if_pos rfl, ← hrest, ih]

theorem skipRun_minusRun_nil (n : Nat) :
    skipRun (.symbol .minus) (minusRun (n + 1)) = [.symbol .minus] := by
  have hsigns : minusRun (n + 1) = minusRun n ++ [.symbol .minus] := List.replicate_succ'
  rw [hsigns, skipRun_minusRun n (by simp)]
  rfl

/-- After a run there is no more of it, unless the list ends. -/
theorem eq_nil_of_skipRun {token : Token} {a rest : List Token}
    (h : skipRun token a = token :: rest) : rest = [] := by
  fun_induction skipRun token a with
  | case1 u ts ih => exact ih h
  | case2 t u ts ht => exact absurd (List.cons.inj h).1 ht
  | case3 ts hshort =>
    cases rest with
    | nil => rfl
    | cons u rest => exact absurd h (hshort _ _ _)

namespace Stretched

variable {k l : Nat} {t u : Token} {a b : List Token}

theorem mono (h : Stretched k a b) (hkl : l ≤ k) : Stretched l a b := by
  cases h with
  | nil => exact .nil
  | cons t h => exact .cons t h
  | run hn hm h => exact .run (Nat.le_trans hkl hn) (Nat.le_trans hkl hm) h

theorem refl (a : List Token) : Stretched 3 a a := by
  induction a with
  | nil => exact .nil
  | cons t a ih => exact .cons t ih

theorem prepend (h : Stretched 3 a b) (front : List Token) :
    Stretched 3 (front ++ a) (front ++ b) := by
  induction front with
  | nil => exact h
  | cons t front ih => exact .cons t ih

theorem append (h : Stretched k a b) (hk : k ≤ 3) (back : List Token) :
    Stretched k (a ++ back) (b ++ back) := by
  induction h with
  | nil => exact (refl back).mono hk
  | cons t _ ih => exact .cons t (ih (Nat.le_refl 3))
  | run hn hm _ ih =>
    rw [List.append_assoc, List.append_assoc]
    exact .run hn hm (ih (Nat.le_refl 3))

theorem getLast?_eq (h : Stretched k a b) (hk : 1 ≤ k) : a.getLast? = b.getLast? := by
  induction h with
  | nil => rfl
  | cons t _ ih => rw [List.getLast?_cons, List.getLast?_cons, ih (by decide)]
  | run hn hm _ ih =>
    rw [List.getLast?_append, List.getLast?_append, ih (by decide)]
    unfold minusRun
    rw [List.getLast?_replicate, List.getLast?_replicate, if_neg (by omega), if_neg (by omega)]

theorem eq_nil_iff (h : Stretched k a b) (hk : 1 ≤ k) : a = [] ↔ b = [] := by
  rw [← List.getLast?_eq_none_iff, h.getLast?_eq hk, List.getLast?_eq_none_iff]

/-- The first tokens are the same.  Either they are not part of a run that was stretched, or
    the rest of the run follows. -/
theorem cons_cases (h : Stretched (k + 1) (t :: a) (u :: b)) :
    t = u ∧ (Stretched 3 a b ∨ t = .symbol .minus ∧ Stretched k a b) := by
  generalize ha : t :: a = a' at h
  generalize hb : u :: b = b' at h
  cases h with
  | nil => exact absurd ha (by simp)
  | cons v h =>
    obtain ⟨rfl, rfl⟩ := List.cons.inj ha
    obtain ⟨rfl, rfl⟩ := List.cons.inj hb
    exact ⟨rfl, .inl h⟩
  | @run _ n m _ _ hn hm h =>
    -- both runs have a first sign, which is what the lists start with
    obtain ⟨n, rfl⟩ := Nat.exists_eq_add_of_le' (Nat.le_trans (Nat.le_add_left 1 k) hn)
    obtain ⟨m, rfl⟩ := Nat.exists_eq_add_of_le' (Nat.le_trans (Nat.le_add_left 1 k) hm)
    obtain ⟨rfl, rfl⟩ := List.cons.inj ha
    obtain ⟨rfl, rfl⟩ := List.cons.inj hb
    exact ⟨rfl, .inr ⟨rfl, .run (by omega) (by omega) h⟩⟩

/-- A run at the front gets shorter when its first sign is passed. -/
theorem tail (h : Stretched (k + 1) (t :: a) (u :: b)) (hk : k ≤ 3) : Stretched k a b := by
  rcases h.cons_cases.2 with h | ⟨-, h⟩
  · exact h.mono hk
  · exact h

/-- Another token than a sign is no part of a run. -/
theorem tail_of_ne (h : Stretched (k + 1) (t :: a) (u :: b)) (ht : t ≠ .symbol .minus) :
    Stretched 3 a b :=
  h.cons_cases.2.resolve_right fun hrun => ht hrun.1

/-- After the runs at the front, however long they are, both lists are the same again. -/
theorem afterRun (h : Stretched k a b) (hk : 1 ≤ k) :
    Stretched 3 (skipRun (.symbol .minus) a) (skipRun (.symbol .minus) b) := by
  -- by induction on the lists, as one run may be followed by another
  induction h with
  | nil => exact .nil
  | @cons _ a b t h ih =>
    by_cases hempty : a = []
    · rw [hempty, (h.eq_nil_iff (by decide)).mp hempty]
      exact refl _
    · obtain ⟨u, a', rfl⟩ := List.exists_cons_of_ne_nil hempty
      obtain ⟨v, b', rfl⟩ := List.exists_cons_of_ne_nil (mt (h.eq_nil_iff (by decide)).mpr hempty)
      rw [skipRun, skipRun]
      split
      · exact ih (by decide)
      · exact .cons t h
  | @run _ n m a b hn hm h ih =>
    by_cases hempty : a = []
    -- at the end of the lists, the last sign of the run stays
    · obtain ⟨n, rfl⟩ := Nat.exists_eq_add_of_le' (Nat.le_trans hk hn)
      obtain ⟨m, rfl⟩ := Nat.exists_eq_add_of_le' (Nat.le_trans hk hm)
      rw [hempty, (h.eq_nil_iff (by decide)).mp hempty, List.append_nil, List.append_nil,
        skipRun_minusRun_nil, skipRun_minusRun_nil]
      exact refl _
    · rw [skipRun_minusRun n hempty, skipRun_minusRun m (mt (h.eq_nil_iff (by decide)).mpr hempty)]
      exact ih (by decide)

end Stretched

/-! ## Section 2: Parses side by side -/

namespace ParseState

theorem tokens_skipAll (s : ParseState) (token : Token) :
    (s.skipAll token).tokens = skipRun token s.tokens := by
  have hgo : ∀ ahead current, (skipAll.go token s current ahead).tokens =
      skipRun token ((current :: ahead).map Located.value) := by
    intro ahead
    induction ahead with
    | nil => exact fun _ => rfl
    | cons t ts ih =>
      intro current
      unfold skipAll.go
      rw [List.map_cons, List.map_cons, skipRun]
      split
      · exact ih t
      · rfl
  exact hgo s.ahead s.current

/-- Two parses are at the same point, but for the lengths of runs of minus signs and for the
    places of all things. -/
structure Beside (k : Nat) (s t : ParseState) : Prop where
  tokens : Stretched k s.tokens t.tokens
  faults : s.faults.map Located.value = t.faults.map Located.value
  aborted : s.aborted = t.aborted
  comments : s.comments = [] ∧ t.comments = []

/-- Two parses have gone on: both have moved past tokens, or neither has. -/
structure Along (s t s' t' : ParseState) : Prop where
  left : s'.ahead.length ≤ s.ahead.length
  right : t'.ahead.length ≤ t.ahead.length
  stays : s'.ahead.length = s.ahead.length ↔ t'.ahead.length = t.ahead.length

theorem Along.refl (s t : ParseState) : Along s t s t := ⟨Nat.le_refl _, Nat.le_refl _, by simp⟩

theorem Along.trans {s t s' t' s'' t'' : ParseState} (h : Along s t s' t')
    (h' : Along s' t' s'' t'') : Along s t s'' t'' := by
  obtain ⟨hleft, hright, hstays⟩ := h
  obtain ⟨hleft', hright', hstays'⟩ := h'
  exact ⟨by omega, by omega, by omega⟩

theorem advance_of_nil {s : ParseState} (h : s.ahead = []) : s.advance = s := by
  unfold advance
  rw [h]

theorem tokens_advance_of_ne {s : ParseState} (h : s.ahead ≠ []) :
    s.advance.tokens = s.ahead.map Located.value := by
  obtain ⟨t, ts, hahead⟩ := List.exists_cons_of_ne_nil h
  rw [hahead]
  exact tokens_advance (t := s.current.value) (by simp [tokens_eq, hahead])

theorem length_advance (s : ParseState) : s.advance.ahead.length = s.ahead.length - 1 := by
  unfold advance
  cases hahead : s.ahead with
  | nil => simp [hahead]
  | cons t ts => simp

theorem comments_skipAll (s : ParseState) (token : Token) :
    (s.skipAll token).comments = s.comments := by
  have hgo : ∀ ahead current, (skipAll.go token s current ahead).comments = s.comments := by
    intro ahead
    induction ahead with
    | nil => exact fun _ => rfl
    | cons t ts ih =>
      intro current
      unfold skipAll.go
      split
      · exact ih t
      · rfl
  exact hgo s.ahead s.current

theorem getLast?_tokens (s : ParseState) : s.tokens.getLast? = some s.lastToken.value := by
  unfold tokens lastToken
  rw [List.getLast?_map, List.getLast?_cons, List.getLastD_eq_getLast?]
  rfl

@[simp] theorem current_report (s : ParseState) (fault : SyntaxFault) (span : Span) :
    (s.report fault span).current = s.current := by
  unfold report
  split <;> rfl

@[simp] theorem ahead_report (s : ParseState) (fault : SyntaxFault) (span : Span) :
    (s.report fault span).ahead = s.ahead := by
  unfold report
  split <;> rfl

theorem Along.report (s t : ParseState) (fault : SyntaxFault) (span span' : Span) :
    Along s t (s.report fault span) (t.report fault span') := by
  constructor <;> simp

namespace Beside

variable {k l : Nat} {s t : ParseState}

theorem mono (h : s.Beside k t) (hkl : l ≤ k) : s.Beside l t :=
  ⟨h.tokens.mono hkl, h.faults, h.aborted, h.comments⟩

theorem current (h : s.Beside (k + 1) t) : s.current.value = t.current.value :=
  h.tokens.cons_cases.1

/-- If one parse is at its last token, so is the other. -/
theorem ahead_eq_nil_iff (h : s.Beside (k + 2) t) : s.ahead = [] ↔ t.ahead = [] := by
  have htail : Stretched 1 _ _ := (h.tokens.mono (Nat.le_add_left 2 k)).tail (by decide)
  simpa using htail.eq_nil_iff (by decide)

theorem length_eq_zero_iff (h : s.Beside (k + 2) t) :
    s.ahead.length = 0 ↔ t.ahead.length = 0 := by
  rw [List.length_eq_zero_iff, List.length_eq_zero_iff]
  exact h.ahead_eq_nil_iff

theorem along_advance (h : s.Beside (k + 2) t) : Along s t s.advance t.advance := by
  have hnil := h.length_eq_zero_iff
  have hs := s.length_advance
  have ht := t.length_advance
  exact ⟨by omega, by omega, by omega⟩

/-- A run is passed in one go.  Its signs after the first may be few on one side and many on
    the other, but the first one is there on both. -/
theorem along_skipAll (h : s.Beside (k + 2) t) (fault : SyntaxFault) (span span' : Span)
    (token : Token) :
    Along s t ((s.advance.report fault span).skipAll token)
      ((t.advance.report fault span').skipAll token) := by
  have hnil := h.length_eq_zero_iff
  have hs := s.length_advance
  have ht := t.length_advance
  have hs' := length_ahead_skipAll (s.advance.report fault span) token
  have ht' := length_ahead_skipAll (t.advance.report fault span') token
  rw [ahead_report] at hs' ht'
  exact ⟨by omega, by omega, by omega⟩

/-- Moving on within a run makes it shorter. -/
theorem advance (h : s.Beside (k + 2) t) (hk : k ≤ 1) : s.advance.Beside (k + 1) t.advance := by
  refine ⟨?_, by simpa using h.faults, by simpa using h.aborted, by simpa using h.comments⟩
  have hnil := h.ahead_eq_nil_iff
  by_cases hahead : s.ahead = []
  -- at their last token, both stay where they are
  · rw [advance_of_nil hahead, advance_of_nil (hnil.mp hahead)]
    exact h.tokens.mono (by omega)
  · rw [tokens_advance_of_ne hahead, tokens_advance_of_ne (mt hnil.mpr hahead)]
    exact h.tokens.tail (by omega)

/-- The places of faults may be different. -/
theorem report (h : s.Beside k t) (fault : SyntaxFault) (span span' : Span) :
    (s.report fault span).Beside k (t.report fault span') := by
  unfold ParseState.report
  rw [← h.aborted]
  split
  · exact h
  · exact ⟨h.tokens, by simp [h.faults], rfl, h.comments⟩

theorem abort (h : s.Beside (k + 1) t) : s.abort.Beside 3 t.abort := by
  have hreport := h.report .tooDeep s.current.span t.current.span
  -- the last token is the one that is left, and a run has a last sign on both sides
  have hlast : s.lastToken.value = t.lastToken.value := by
    have heq := h.tokens.getLast?_eq (Nat.le_add_left 1 k)
    rw [getLast?_tokens, getLast?_tokens] at heq
    exact Option.some.inj heq
  refine ⟨?_, hreport.faults, rfl, hreport.comments⟩
  show Stretched 3 [s.lastToken.value] [t.lastToken.value]
  rw [hlast]
  exact .refl _

theorem along_abort (h : s.Beside (k + 2) t) : Along s t s.abort t.abort := by
  have hnil := h.length_eq_zero_iff
  have hs : s.abort.ahead.length = 0 := rfl
  have ht : t.abort.ahead.length = 0 := rfl
  exact ⟨by omega, by omega, by omega⟩

end Beside

/-- Two parses are at the same point, and not at a minus sign, unless it is the last token. -/
structure Clear (s t : ParseState) : Prop extends s.Beside 3 t where
  noSign : s.current.value = .symbol .minus → s.ahead = []

namespace Clear

variable {k : Nat} {s t : ParseState}

theorem of_ne (h : s.Beside (k + 1) t) (hne : s.current.value ≠ .symbol .minus) : s.Clear t := by
  refine ⟨⟨?_, h.faults, h.aborted, h.comments⟩, fun hsign => absurd hsign hne⟩
  -- the token is no sign, so that no run begins with it
  have htail := h.tokens.tail_of_ne hne
  rw [tokens_eq, tokens_eq, h.current]
  exact .cons _ htail

/-- Signs that were skipped are passed, but for the last token. -/
theorem skipAll (h : s.Beside 1 t) :
    (s.skipAll (.symbol .minus)).Clear (t.skipAll (.symbol .minus)) := by
  refine ⟨⟨?_, ?_, ?_, ?_⟩, ?_⟩
  · rw [tokens_skipAll, tokens_skipAll]
    exact h.tokens.afterRun (by decide)
  · rw [(faults_skipAll s _).1, (faults_skipAll t _).1, h.faults]
  · rw [(faults_skipAll s _).2, (faults_skipAll t _).2, h.aborted]
  · rw [comments_skipAll, comments_skipAll]
    exact h.comments
  · intro hsign
    have htokens := (tokens_skipAll s (.symbol .minus)).symm
    rw [tokens_eq (s.skipAll _), hsign] at htokens
    simpa using eq_nil_of_skipRun htokens

theorem advance (h : s.Clear t) : s.advance.Beside 3 t.advance := by
  have hnil := h.ahead_eq_nil_iff
  by_cases hahead : s.ahead = []
  · rw [advance_of_nil hahead, advance_of_nil (hnil.mp hahead)]
    exact h.toBeside
  · have htail := h.tokens.tail_of_ne (mt h.noSign hahead)
    rw [← tokens_advance_of_ne hahead, ← tokens_advance_of_ne (mt hnil.mpr hahead)] at htail
    exact ⟨htail, by simpa using h.faults, by simpa using h.aborted, by simpa using h.comments⟩

theorem report (h : s.Clear t) (fault : SyntaxFault) (span span' : Span) :
    (s.report fault span).Clear (t.report fault span') := by
  refine ⟨h.toBeside.report fault span span', ?_⟩
  rw [ParseState.current_report, ParseState.ahead_report]
  exact h.noSign

end Clear

end ParseState

end Mlog
