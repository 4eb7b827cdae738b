import Mathlib.Data.List.Basic

/-!
# Table-driven scanners

A scanner reads a buffer byte by byte. What it does with a byte depends on its state and, because
its actions may look back into the buffer, on the position; an action may also throw. It ends at
the end of the buffer, after a byte that makes it stop, or before a byte it has no move for.
-/

namespace Saturn

theorem except_bind_eq_ok {ε α β : Type*} {x : Except ε α} {f : α → Except ε β} {b : β} :
    x.bind f = .ok b ↔ ∃ a, x = .ok a ∧ f a = .ok b := by
  cases x with
  | error => exact ⟨nofun, nofun⟩
  | ok a => exact ⟨fun h => ⟨a, rfl, h⟩, fun ⟨_, ha, h⟩ => by cases ha; exact h⟩

theorem except_map_eq_ok {ε α β : Type*} {x : Except ε α} {f : α → β} {b : β} :
    x.map f = .ok b ↔ ∃ a, x = .ok a ∧ f a = b := by
  cases x with
  | error => exact ⟨nofun, nofun⟩
  | ok a => exact ⟨fun h => ⟨a, rfl, Except.ok.inj h⟩, fun ⟨_, ha, h⟩ => by cases ha; rw [← h]; rfl⟩

section Scan

variable {S T α ε : Type*}

/-- What a scanner does with one byte. -/
inductive Move (S : Type*)
  | goto (s : S)
  | stop (s : S)
  | fail
  deriving Repr, DecidableEq

/-- How a scan ends. -/
inductive Halt
  | atEnd
  | stopped
  | failed
  deriving Repr, DecidableEq

/-- Where a scan ends, and how. -/
structure Scanned (S : Type*) where
  state : S
  pos : Nat
  halt : Halt
  deriving Repr, DecidableEq

/-- Scan the bytes, the first of which stands at position `p`. -/
def scan (step : S → Nat → α → Except ε (Move S)) : S → Nat → List α → Except ε (Scanned S)
  | s, p, [] => .ok ⟨s, p, .atEnd⟩
  | s, p, b :: bs =>
    match step s p b with
    | .error e => .error e
    | .ok (.goto t) => scan step t (p + 1) bs
    | .ok (.stop t) => .ok ⟨t, p + 1, .stopped⟩
    | .ok .fail => .ok ⟨s, p, .failed⟩

variable {step : S → Nat → α → Except ε (Move S)} {step' : T → Nat → α → Except ε (Move T)}

@[simp] theorem scan_nil (s : S) (p : Nat) : scan step s p [] = .ok ⟨s, p, .atEnd⟩ := rfl

theorem scan_cons_goto {s t : S} {p : Nat} {b : α} (bs : List α) (h : step s p b = .ok (.goto t)) :
    scan step s p (b :: bs) = scan step t (p + 1) bs := by
  rw [scan, h]

theorem scan_cons_stop {s t : S} {p : Nat} {b : α} (bs : List α) (h : step s p b = .ok (.stop t)) :
    scan step s p (b :: bs) = .ok ⟨t, p + 1, .stopped⟩ := by
  rw [scan, h]

theorem scan_cons_fail {s : S} {p : Nat} {b : α} (bs : List α) (h : step s p b = .ok .fail) :
    scan step s p (b :: bs) = .ok ⟨s, p, .failed⟩ := by
  rw [scan, h]

/-- What the first step of a scan that does not throw was. -/
theorem scan_cons_cases {s : S} {p : Nat} {b : α} {bs : List α} {e : Scanned S}
    (h : scan step s p (b :: bs) = .ok e) :
    (∃ t, step s p b = .ok (.goto t) ∧ scan step t (p + 1) bs = .ok e) ∨
    (∃ t, step s p b = .ok (.stop t) ∧ e = ⟨t, p + 1, .stopped⟩) ∨
    (step s p b = .ok .fail ∧ e = ⟨s, p, .failed⟩) := by
  unfold scan at h
  split at h
  next => cases h
  next t hstep => exact .inl ⟨t, hstep, h⟩
  next t hstep =>
    cases h
    exact .inr (.inl ⟨t, hstep, rfl⟩)
  next hstep =>
    cases h
    exact .inr (.inr ⟨hstep, rfl⟩)

/-- Where a scan can end: past the last byte, or behind the byte that stopped it. -/
theorem scan_pos {xs : List α} : ∀ {s : S} {p : Nat} {e : Scanned S}, scan step s p xs = .ok e →
    (e.halt = .atEnd → e.pos = p + xs.length) ∧ e.pos ≤ p + xs.length := by
  induction xs with
  | nil =>
      intro s p e h
      cases h
      exact ⟨fun _ => rfl, Nat.le_refl _⟩
  | cons b bs ih =>
      intro s p e h
      rw [List.length_cons]
      rcases scan_cons_cases h with ⟨t, -, ht⟩ | ⟨t, -, rfl⟩ | ⟨-, rfl⟩
      · obtain ⟨hend, hle⟩ := ih ht
        refine ⟨fun he => ?_, ?_⟩
        · rw [hend he]; omega
        · omega
      · exact ⟨nofun, by simp only; omega⟩
      · exact ⟨nofun, by simp only; omega⟩

theorem scan_start_le {xs : List α} : ∀ {s : S} {p : Nat} {e : Scanned S},
    scan step s p xs = .ok e → p ≤ e.pos := by
  induction xs with
  | nil =>
      intro s p e h
      cases h
      exact Nat.le_refl _
  | cons b bs ih =>
      intro s p e h
      rcases scan_cons_cases h with ⟨t, -, ht⟩ | ⟨t, -, rfl⟩ | ⟨-, rfl⟩
      · exact Nat.le_of_succ_le (ih ht)
      · exact Nat.le_succ p
      · exact Nat.le_refl p

/-- A scan that passes no byte changes nothing. -/
theorem scan_stays {xs : List α} {s : S} {p : Nat} {e : Scanned S} (h : scan step s p xs = .ok e)
    (hpos : e.pos = p) : e.state = s := by
  cases xs with
  | nil =>
      cases h
      rfl
  | cons b bs =>
      rcases scan_cons_cases h with ⟨t, -, ht⟩ | ⟨t, -, rfl⟩ | ⟨-, rfl⟩
      · have := scan_start_le ht
        omega
      · exact absurd hpos (Nat.succ_ne_self p)
      · rfl

theorem scan_append (xs ys : List α) (s : S) (p : Nat) :
    scan step s p (xs ++ ys) = (scan step s p xs).bind fun e =>
      if e.halt = .atEnd then scan step e.state e.pos ys else .ok e := by
  induction xs generalizing s p with
  | nil => rfl
  | cons b bs ih =>
      rw [List.cons_append, scan, scan]
      split
      · rfl
      · exact ih _ _
      · rfl
      · rfl

/-- A scan that ends behind its first bytes passes them without stopping. -/
theorem scan_append_atEnd {xs ys : List α} {s : S} {p : Nat} {e : Scanned S}
    (h : scan step s p (xs ++ ys) = .ok e) (hpos : p + xs.length < e.pos) :
    ∃ t, scan step s p xs = .ok ⟨t, p + xs.length, .atEnd⟩ ∧
      scan step t (p + xs.length) ys = .ok e := by
  rw [scan_append, except_bind_eq_ok] at h
  obtain ⟨⟨t, q, halt⟩, hd, he⟩ := h
  obtain ⟨hend, hle⟩ := scan_pos hd
  by_cases hhalt : halt = .atEnd
  · subst hhalt
    obtain rfl : q = p + xs.length := hend rfl
    exact ⟨t, hd, he⟩
  · rw [if_neg hhalt] at he
    cases he
    simp only at hle hpos
    omega

/-- A scan that gets past its first bytes, or to their end, scans them. -/
theorem scan_append_first {xs ys : List α} {s : S} {p : Nat} {e : Scanned S}
    (h : scan step s p (xs ++ ys) = .ok e) (hpos : p + xs.length ≤ e.pos) :
    ∃ d, scan step s p xs = .ok d ∧ d.pos = p + xs.length := by
  rw [scan_append, except_bind_eq_ok] at h
  obtain ⟨d, hd, he⟩ := h
  obtain ⟨hend, hle⟩ := scan_pos hd
  refine ⟨d, hd, ?_⟩
  by_cases hhalt : d.halt = .atEnd
  · exact hend hhalt
  · rw [if_neg hhalt] at he
    cases he
    omega

/-- The invariant rule: what every move to a next state preserves holds where the scan ends, or
where it is stopped. -/
theorem scan_invariant {I : S → Prop}
    (hstep : ∀ s t p b, I s → step s p b = .ok (.goto t) → I t) (xs : List α) :
    ∀ {s p e}, I s → scan step s p xs = .ok e →
    (e.halt ≠ .stopped → I e.state) ∧
    (e.halt = .stopped → ∃ s q b, I s ∧ step s q b = .ok (.stop e.state) ∧ e.pos = q + 1) := by
  induction xs with
  | nil =>
      intro s p e hI h
      cases h
      exact ⟨fun _ => hI, nofun⟩
  | cons b bs ih =>
      intro s p e hI h
      rcases scan_cons_cases h with ⟨t, hs, h⟩ | ⟨t, hs, rfl⟩ | ⟨-, rfl⟩
      · exact ih (hstep _ _ _ _ hI hs) h
      · exact ⟨fun hne => absurd rfl hne, fun _ => ⟨s, p, b, hI, hs, rfl⟩⟩
      · exact ⟨fun _ => hI, nofun⟩

/-- A scan that stopped does not look at the bytes behind. -/
theorem scan_append_stopped {xs : List α} {s : S} {p : Nat} {e : Scanned S}
    (h : scan step s p xs = .ok e) (hstop : e.halt = .stopped) (ys : List α) :
    scan step s p (xs ++ ys) = .ok e := by
  rw [scan_append, h, Except.bind, if_neg (by rw [hstop]; decide)]

/-- Two moves that agree up to a relation of the states. -/
def Move.Related (R : S → T → Prop) : Move S → Move T → Prop
  | .goto s, .goto t | .stop s, .stop t => R s t
  | .fail, .fail => True
  | _, _ => False

/-- The lockstep rule: where two scanners make related moves whenever neither throws, they end the
same way after the same number of bytes. -/
theorem scan_related {R : S → T → Prop}
    (hstep : ∀ s t p q b m n, R s t → step s p b = .ok m → step' t q b = .ok n → m.Related R n)
    (xs : List α) : ∀ {s t p q d e}, R s t → scan step s p xs = .ok d →
    scan step' t q xs = .ok e → R d.state e.state ∧ d.halt = e.halt ∧ d.pos + q = e.pos + p := by
  induction xs with
  | nil =>
      intro s t p q d e hR hd he
      cases hd
      cases he
      exact ⟨hR, rfl, Nat.add_comm p q⟩
  | cons b bs ih =>
      intro s t p q d e hR hd he
      rcases scan_cons_cases hd with ⟨s₁, h₁, hd⟩ | ⟨s₁, h₁, rfl⟩ | ⟨h₁, rfl⟩ <;>
      rcases scan_cons_cases he with ⟨t₁, h₂, he⟩ | ⟨t₁, h₂, rfl⟩ | ⟨h₂, rfl⟩ <;>
      have hmove := hstep _ _ _ _ _ _ _ hR h₁ h₂ <;> simp only [Move.Related] at hmove
      · obtain ⟨hst, hhalt, hpos⟩ := ih hmove hd he
        exact ⟨hst, hhalt, by omega⟩
      · exact ⟨hmove, rfl, by simp only; omega⟩
      · exact ⟨hR, rfl, Nat.add_comm p q⟩

/-- The state that a move leads to, if it leads to one. -/
def Move.Reaches (P : S → Prop) : Move S → Prop
  | .goto s | .stop s => P s
  | .fail => True

/-- The progress rule: where no step within the first `n` positions throws, and each keeps to an
invariant of the state and the position, the scan does not throw and ends in the invariant. -/
theorem scan_keeps {I : S → Nat → Prop} {n : Nat}
    (hstep : ∀ s p b, I s p → p < n → ∃ m, step s p b = .ok m ∧ m.Reaches (I · (p + 1)))
    (xs : List α) : ∀ {s p}, I s p → p + xs.length ≤ n →
    ∃ e, scan step s p xs = .ok e ∧ I e.state e.pos := by
  induction xs with
  | nil => exact fun {s p} hI _ => ⟨_, rfl, hI⟩
  | cons b bs ih =>
      intro s p hI hn
      rw [List.length_cons] at hn
      obtain ⟨m, hm, hreach⟩ := hstep s p b hI (by omega)
      cases m with
      | goto t =>
          rw [scan_cons_goto bs hm]
          exact ih hreach (by omega)
      | stop t => exact ⟨_, scan_cons_stop bs hm, hreach⟩
      | fail => exact ⟨_, scan_cons_fail bs hm, hI⟩

/-- The lockstep rule for two scanners at one position. -/
theorem scan_lockstep {R : S → T → Nat → Prop} {n : Nat}
    (hstep : ∀ s t p b m m', R s t p → p < n → step s p b = .ok m → step' t p b = .ok m' →
      m.Related (R · · (p + 1)) m')
    (xs : List α) : ∀ {s t p d e}, R s t p → p + xs.length ≤ n → scan step s p xs = .ok d →
    scan step' t p xs = .ok e → R d.state e.state d.pos ∧ d.halt = e.halt ∧ d.pos = e.pos := by
  induction xs with
  | nil =>
      intro s t p d e hR _ hd he
      cases hd
      cases he
      exact ⟨hR, rfl, rfl⟩
  | cons b bs ih =>
      intro s t p d e hR hn hd he
      rw [List.length_cons] at hn
      rcases scan_cons_cases hd with ⟨s₁, h₁, hd⟩ | ⟨s₁, h₁, rfl⟩ | ⟨h₁, rfl⟩ <;>
      rcases scan_cons_cases he with ⟨t₁, h₂, he⟩ | ⟨t₁, h₂, rfl⟩ | ⟨h₂, rfl⟩ <;>
      have hmove := hstep _ _ _ _ _ _ hR (by omega) h₁ h₂ <;> simp only [Move.Related] at hmove
      · exact ih hmove (by omega) hd he
      · exact ⟨hmove, rfl, rfl⟩
      · exact ⟨hR, rfl, rfl⟩

/-- The transfer rule: a scanner that makes the same moves under an invariant ends the same way. -/
theorem scan_congr {step' : S → Nat → α → Except ε (Move S)} {I : S → Nat → Prop} (whole : List α)
    (hstep : ∀ s p b bs m, I s p → whole.drop p = b :: bs → step s p b = .ok m →
      step' s p b = .ok m ∧ ∀ t, m = .goto t → I t (p + 1)) :
    ∀ (xs : List α) {s p e}, whole.drop p = xs → I s p → scan step s p xs = .ok e →
    scan step' s p xs = .ok e := by
  intro xs
  induction xs with
  | nil => intro s p e _ _ h; exact h
  | cons b bs ih =>
      intro s p e hxs hI h
      rcases scan_cons_cases h with ⟨t, hs, h⟩ | ⟨t, hs, rfl⟩ | ⟨hs, rfl⟩
      · obtain ⟨hs', hI'⟩ := hstep _ _ _ _ _ hI hxs hs
        rw [scan_cons_goto bs hs']
        refine ih ?_ (hI' t rfl) h
        rw [← List.drop_drop, hxs, List.drop_one, List.tail_cons]
      · exact scan_cons_stop bs (hstep _ _ _ _ _ hI hxs hs).1
      · exact scan_cons_fail bs (hstep _ _ _ _ _ hI hxs hs).1

/-- What stands in a list at a position, and what stands behind it. -/
theorem append_prefix_drop {l v w : List α} {p : Nat} (hv : v <+: l.drop p)
    (hw : w <+: l.drop (p + v.length)) : v ++ w <+: l.drop p := by
  obtain ⟨tail, htail⟩ := hv
  rw [← List.drop_drop, ← htail, List.drop_left] at hw
  rw [← htail]
  exact (List.prefix_append_right_inj v).mpr hw

/-- The triple of a scanner: from a state in `I` it goes over the bytes `w`, wherever they stand in the
buffer and whatever is behind them, to a state in `J`. -/
def Passes (step : S → Nat → α → Except ε (Move S)) (buf : List α) (I : S → Nat → Prop) (w : List α)
    (J : S → Nat → Prop) : Prop :=
  ∀ s p tail, buf.drop p = w ++ tail → I s p →
    ∃ t, scan step s p (w ++ tail) = scan step t (p + w.length) tail ∧ J t (p + w.length)

namespace Passes

variable {buf v w : List α} {I J K : S → Nat → Prop}

theorem nil (h : ∀ s p, I s p → J s p) : Passes step buf I [] J :=
  fun s p _ _ hI => ⟨s, rfl, h s p hI⟩

theorem append (hv : Passes step buf I v J) (hw : Passes step buf J w K) :
    Passes step buf I (v ++ w) K := by
  intro s p tail hbuf hI
  rw [List.append_assoc] at hbuf
  obtain ⟨t, ht, hJ⟩ := hv s p (w ++ tail) hbuf hI
  have hbuf' : buf.drop (p + v.length) = w ++ tail := by
    rw [← List.drop_drop, hbuf, List.drop_left]
  obtain ⟨u, hu, hK⟩ := hw t _ tail hbuf' hJ
  refine ⟨u, ?_, ?_⟩
  · rw [List.append_assoc, ht, hu, List.length_append, Nat.add_assoc]
  · rw [List.length_append, ← Nat.add_assoc]
    exact hK

theorem of_step {b : α} (h : ∀ s p tail, buf.drop p = b :: tail → I s p →
    ∃ t, step s p b = .ok (.goto t) ∧ J t (p + 1)) : Passes step buf I [b] J := by
  intro s p tail hbuf hI
  obtain ⟨t, ht, hJ⟩ := h s p tail hbuf hI
  exact ⟨t, scan_cons_goto tail ht, hJ⟩

theorem cons {b : α} (hb : Passes step buf I [b] J) (hw : Passes step buf J w K) :
    Passes step buf I (b :: w) K := hb.append hw

end Passes

end Scan

end Saturn
