/-! Readers over a tape. A reader takes a prefix of the unread list or fails; nothing
here fixes what is read. Two judgements describe a reader on a written word: Accepts
(the word is consumed, whatever follows it) and Rejects (no continuation saves it).
Delimited says that every success is an acceptance of the prefix it consumed. -/
namespace Reading

/-- The unread part of an input and the number of items already taken. -/
structure Tape (β : Type) where
  pos : Nat
  rest : List β

abbrev Reader (ε β α : Type) := StateT (Tape β) (Except ε) α

variable {ε β α γ : Type}

def failIf (bad : Prop) [Decidable bad] (e : ε) : Reader ε β Unit :=
  if bad then throw e else pure ()

def lift (x : Except ε α) : Reader ε β α := fun t => x.map (fun a => (a, t))

def times (r : Reader ε β α) : Nat → Reader ε β (List α)
  | 0 => pure []
  | n + 1 => do
    let a ← r
    let as ← times r n
    pure (a :: as)

/-- Read an input to its end; leftover items are an error of their own. -/
def whole (r : Reader ε β α) (leftover : ε) (input : List β) : Except ε α :=
  match r ⟨0, input⟩ with
  | .error e => .error e
  | .ok (a, t) => if t.rest.isEmpty then .ok a else .error leftover

theorem bind_ok (r : Reader ε β α) (k : α → Reader ε β γ) (t u : Tape β) (c : γ) :
    (r >>= k) t = .ok (c, u) ↔ ∃ a s, r t = .ok (a, s) ∧ k a s = .ok (c, u) := by
  change (r t >>= fun p => k p.1 p.2) = .ok (c, u) ↔ _
  cases r t with
  | error e => simp [bind, Except.bind]
  | ok p =>
    obtain ⟨a, s⟩ := p
    simp only [bind, Except.bind, Except.ok.injEq, Prod.mk.injEq]
    constructor
    · exact fun hk => ⟨a, s, ⟨rfl, rfl⟩, hk⟩
    · rintro ⟨_, _, ⟨rfl, rfl⟩, hk⟩
      exact hk

theorem bind_error (r : Reader ε β α) (k : α → Reader ε β γ) (t : Tape β) (e : ε)
    (failed : r t = .error e) : (r >>= k) t = .error e := by
  change (r t >>= fun p => k p.1 p.2) = .error e
  rw [failed]
  rfl

@[simp] theorem pure_ok (a c : α) (t u : Tape β) :
    (pure a : Reader ε β α) t = .ok (c, u) ↔ a = c ∧ t = u := by
  change Except.ok (a, t) = Except.ok (c, u) ↔ _
  simp

@[simp] theorem throw_ok (e : ε) (c : α) (t u : Tape β) :
    (throw e : Reader ε β α) t = .ok (c, u) ↔ False := by
  change Except.error e = Except.ok (c, u) ↔ _
  simp

@[simp] theorem failIf_ok (bad : Prop) [Decidable bad] (e : ε) (c : Unit) (t u : Tape β) :
    (failIf bad e : Reader ε β Unit) t = .ok (c, u) ↔ ¬ bad ∧ t = u := by
  unfold failIf
  split <;> simp_all

@[simp] theorem lift_ok (x : Except ε α) (c : α) (t u : Tape β) :
    (lift x : Reader ε β α) t = .ok (c, u) ↔ x = .ok c ∧ t = u := by
  cases x <;> simp [lift, Except.map]

theorem whole_ok (r : Reader ε β α) (leftover : ε) (input : List β) (a : α) :
    whole r leftover input = .ok a ↔ ∃ t, r ⟨0, input⟩ = .ok (a, t) ∧ t.rest = [] := by
  unfold whole
  cases r ⟨0, input⟩ with
  | error e => simp
  | ok p =>
    obtain ⟨b, t⟩ := p
    cases ht : t.rest with
    | nil =>
      simp only [ht, List.isEmpty_nil, if_true, Except.ok.injEq, Prod.mk.injEq]
      constructor
      · rintro rfl
        exact ⟨t, ⟨rfl, rfl⟩, ht⟩
      · rintro ⟨_, ⟨rfl, _⟩, _⟩
        rfl
    | cons => simp [ht]

/-- The reader consumes exactly the word and returns the value, in every context. -/
def Accepts (r : Reader ε β α) (w : List β) (a : α) : Prop :=
  ∀ pos rest, r ⟨pos, w ++ rest⟩ = .ok (a, ⟨pos + w.length, rest⟩)

def Rejects (r : Reader ε β α) (w : List β) : Prop :=
  ∀ pos rest, ∃ e, r ⟨pos, w ++ rest⟩ = .error e

/-- What a success consumed is a prefix, and the reader accepts that prefix alone. -/
def Delimited (r : Reader ε β α) : Prop :=
  ∀ t a u, r t = .ok (a, u) →
    ∃ w, t.rest = w ++ u.rest ∧ u.pos = t.pos + w.length ∧ Accepts r w a

theorem Accepts.pure (a : α) : Accepts (pure a : Reader ε β α) [] a :=
  fun _ _ => rfl

theorem Accepts.bind {r : Reader ε β α} {k : α → Reader ε β γ} {v w : List β} {a : α} {c : γ}
    (first : Accepts r v a) (next : Accepts (k a) w c) : Accepts (r >>= k) (v ++ w) c := by
  intro pos rest
  rw [bind_ok]
  refine ⟨a, ⟨pos + v.length, w ++ rest⟩, ?_, ?_⟩
  · rw [List.append_assoc]
    exact first pos (w ++ rest)
  · rw [List.length_append, ← Nat.add_assoc]
    exact next (pos + v.length) rest

theorem Accepts.unique {r : Reader ε β α} {v w x y : List β} {a b : α} (first : Accepts r v a)
    (second : Accepts r w b) (same : v ++ x = w ++ y) : v = w ∧ a = b ∧ x = y := by
  have run := first 0 x
  rw [same, second 0 y] at run
  simp only [Except.ok.injEq, Prod.mk.injEq, Tape.mk.injEq] at run
  obtain ⟨rfl, _, rfl⟩ := run
  exact ⟨List.append_cancel_right same, rfl, rfl⟩

theorem Accepts.skip {r : Reader ε β α} {k : α → Reader ε β γ} {w : List β} {a : α} {c : γ}
    (first : Accepts r [] a) (next : Accepts (k a) w c) : Accepts (r >>= k) w c :=
  first.bind next

theorem Accepts.map {r : Reader ε β α} {w : List β} {a : α} (f : α → γ) (h : Accepts r w a) :
    Accepts (r >>= fun b => Pure.pure (f b)) w (f a) := by
  have whole := h.bind (k := fun b => Pure.pure (f b)) (Accepts.pure (f a))
  simpa using whole

theorem Accepts.failIf {bad : Prop} [Decidable bad] (e : ε) (good : ¬ bad) :
    Accepts (failIf bad e : Reader ε β Unit) [] () := by
  intro pos rest
  simp [good]

theorem Accepts.lift {x : Except ε α} {a : α} (h : x = .ok a) :
    Accepts (lift x : Reader ε β α) [] a := by
  intro pos rest
  simp [h]

theorem Accepts.times {r : Reader ε β α} {write : α → List β} {as : List α}
    (each : ∀ a ∈ as, Accepts r (write a) a) :
    Accepts (times r as.length) (as.flatMap write) as := by
  induction as with
  | nil => exact Accepts.pure []
  | cons a as ih =>
    have head := each a (List.mem_cons_self ..)
    have tail := ih (fun b hb => each b (List.mem_cons_of_mem _ hb))
    exact head.bind (tail.map (a :: ·))

theorem Rejects.throw (e : ε) (w : List β) : Rejects (throw e : Reader ε β α) w :=
  fun _ _ => ⟨e, rfl⟩

theorem Rejects.failIf {bad : Prop} [Decidable bad] (e : ε) (h : bad) (w : List β) :
    Rejects (failIf bad e : Reader ε β Unit) w := by
  intro pos rest
  exact ⟨e, by simp only [Reading.failIf, if_pos h]; rfl⟩

theorem Rejects.lift {x : Except ε α} {e : ε} (h : x = .error e) (w : List β) :
    Rejects (lift x : Reader ε β α) w := by
  intro pos rest
  exact ⟨e, by rw [h]; rfl⟩

theorem Rejects.left {r : Reader ε β α} {k : α → Reader ε β γ} {v : List β}
    (first : Rejects r v) (w : List β) : Rejects (r >>= k) (v ++ w) := by
  intro pos rest
  obtain ⟨e, he⟩ := first pos (w ++ rest)
  exact ⟨e, by rw [List.append_assoc]; exact bind_error r k _ e he⟩

theorem Rejects.stop {r : Reader ε β α} {k : α → Reader ε β γ} {w : List β}
    (first : Rejects r w) : Rejects (r >>= k) w := by
  simpa using first.left (k := k) []

theorem Rejects.right {r : Reader ε β α} {k : α → Reader ε β γ} {v w : List β} {a : α}
    (first : Accepts r v a) (next : Rejects (k a) w) : Rejects (r >>= k) (v ++ w) := by
  intro pos rest
  obtain ⟨e, he⟩ := next (pos + v.length) rest
  refine ⟨e, ?_⟩
  change (r ⟨pos, v ++ w ++ rest⟩ >>= fun p => k p.1 p.2) = .error e
  rw [List.append_assoc, first pos (w ++ rest)]
  exact he

theorem Rejects.skip {r : Reader ε β α} {k : α → Reader ε β γ} {w : List β} {a : α}
    (first : Accepts r [] a) (next : Rejects (k a) w) : Rejects (r >>= k) w :=
  Rejects.right first next

theorem Accepts.whole {r : Reader ε β α} {w : List β} {a : α} (h : Accepts r w a)
    (leftover : ε) : whole r leftover w = .ok a := by
  have run := h 0 []
  rw [List.append_nil] at run
  exact (whole_ok r leftover w a).mpr ⟨_, run, rfl⟩

theorem Rejects.whole {r : Reader ε β α} {w : List β} (h : Rejects r w) (leftover : ε) :
    ∃ e, whole r leftover w = .error e := by
  obtain ⟨e, run⟩ := h 0 []
  rw [List.append_nil] at run
  exact ⟨e, by simp only [Reading.whole, run]⟩

theorem Delimited.whole {r : Reader ε β α} (h : Delimited r) {leftover : ε} {input : List β}
    {a : α} (run : whole r leftover input = .ok a) : Accepts r input a := by
  obtain ⟨t, ht, finished⟩ := (whole_ok r leftover input a).mp run
  obtain ⟨w, split, _, accepts⟩ := h _ a t ht
  rw [finished, List.append_nil] at split
  have consumed : input = w := split
  rw [consumed]
  exact accepts

theorem Delimited.pure (a : α) : Delimited (pure a : Reader ε β α) := by
  intro t c u h
  obtain ⟨rfl, rfl⟩ := (pure_ok a c t u).mp h
  exact ⟨[], rfl, rfl, Accepts.pure a⟩

theorem Delimited.bind {r : Reader ε β α} {k : α → Reader ε β γ}
    (first : Delimited r) (next : ∀ a, Delimited (k a)) : Delimited (r >>= k) := by
  intro t c u h
  obtain ⟨a, s, hr, hk⟩ := (bind_ok r k t u c).mp h
  obtain ⟨v, tv, sv, av⟩ := first t a s hr
  obtain ⟨w, sw, uw, aw⟩ := next a s c u hk
  refine ⟨v ++ w, ?_, ?_, av.bind aw⟩
  · rw [tv, sw, List.append_assoc]
  · rw [uw, sv, List.length_append, Nat.add_assoc]

theorem Delimited.throw (e : ε) : Delimited (throw e : Reader ε β α) := by
  intro t c u h
  simp at h

theorem Delimited.failIf (bad : Prop) [Decidable bad] (e : ε) :
    Delimited (failIf bad e : Reader ε β Unit) := by
  unfold Reading.failIf
  split
  · exact Delimited.throw e
  · exact Delimited.pure ()

theorem Delimited.lift (x : Except ε α) : Delimited (lift x : Reader ε β α) := by
  intro t c u h
  obtain ⟨hx, rfl⟩ := (lift_ok x c t u).mp h
  exact ⟨[], rfl, rfl, Accepts.lift hx⟩

theorem Delimited.times {r : Reader ε β α} (each : Delimited r) (n : Nat) :
    Delimited (times r n) := by
  induction n with
  | zero => exact Delimited.pure []
  | succ n ih => exact each.bind (fun a => ih.bind (fun as => Delimited.pure (a :: as)))

/-- On the word, in every context, the reader does not fail with this error. Avoided on the
empty word, the error is avoided on every input. -/
def Avoids (e : ε) (r : Reader ε β α) (w : List β) : Prop :=
  ∀ pos rest, r ⟨pos, w ++ rest⟩ ≠ .error e

theorem Avoids.on {e : ε} {r : Reader ε β α} (h : Avoids e r []) (w : List β) : Avoids e r w :=
  fun pos rest => h pos (w ++ rest)

theorem bind_failed {e : ε} {r : Reader ε β α} {k : α → Reader ε β γ} {t : Tape β}
    (failed : (r >>= k) t = .error e) :
    r t = .error e ∨ ∃ a s, r t = .ok (a, s) ∧ k a s = .error e := by
  change (r t >>= fun p => k p.1 p.2) = .error e at failed
  cases run : r t with
  | error e' =>
    rw [run] at failed
    exact .inl (congrArg Except.error (Except.error.inj failed))
  | ok p =>
    rw [run] at failed
    exact .inr ⟨p.1, p.2, rfl, failed⟩

theorem Avoids.pure {e : ε} (a : α) (w : List β) : Avoids e (pure a : Reader ε β α) w :=
  fun _ _ failed => nomatch failed

theorem Avoids.throw {e e' : ε} (other : e' ≠ e) (w : List β) :
    Avoids e (throw e' : Reader ε β α) w :=
  fun _ _ failed => other (Except.error.inj failed)

theorem Avoids.lift {e : ε} {x : Except ε α} (calm : x ≠ .error e) (w : List β) :
    Avoids e (lift x : Reader ε β α) w := by
  intro pos rest failed
  cases x with
  | error e' => exact calm (congrArg Except.error (Except.error.inj failed))
  | ok a => cases failed

theorem Avoids.bind {e : ε} {r : Reader ε β α} {k : α → Reader ε β γ} {w : List β}
    (first : Avoids e r w) (next : ∀ a, Avoids e (k a) []) : Avoids e (r >>= k) w := by
  intro pos rest failed
  obtain failed | ⟨a, s, _, failed⟩ := bind_failed failed
  · exact first pos rest failed
  · exact next a s.pos s.rest failed

theorem Avoids.right {e : ε} {r : Reader ε β α} {k : α → Reader ε β γ} {v w : List β} {a : α}
    (first : Accepts r v a) (next : Avoids e (k a) w) : Avoids e (r >>= k) (v ++ w) := by
  intro pos rest failed
  have run := first pos (w ++ rest)
  rw [← List.append_assoc] at run
  obtain failed | ⟨b, s, read, failed⟩ := bind_failed failed
  · rw [run] at failed
    cases failed
  · rw [run] at read
    cases read
    exact next _ _ failed

theorem Avoids.times {e : ε} {r : Reader ε β α} (each : Avoids e r []) (n : Nat) :
    Avoids e (times r n) [] := by
  induction n with
  | zero => exact Avoids.pure [] []
  | succ n ih => exact each.bind (fun a => ih.bind (fun as => Avoids.pure (a :: as) []))

theorem whole_failed {e leftover : ε} {r : Reader ε β α} {w : List β} (other : leftover ≠ e)
    (failed : whole r leftover w = .error e) : r ⟨0, w⟩ = .error e := by
  unfold whole at failed
  cases run : r ⟨0, w⟩ with
  | error e' =>
    rw [run] at failed
    exact congrArg Except.error (Except.error.inj failed)
  | ok p =>
    rw [run] at failed
    dsimp only at failed
    split at failed
    · cases failed
    · exact absurd (Except.error.inj failed) other

theorem Avoids.whole {e leftover : ε} {r : Reader ε β α} {w : List β} (h : Avoids e r w)
    (other : leftover ≠ e) : whole r leftover w ≠ .error e := by
  intro failed
  have calm := h 0 []
  rw [List.append_nil] at calm
  exact calm (whole_failed other failed)

def Extends (r r' : Reader ε β α) : Prop :=
  ∀ t a u, r t = .ok (a, u) → r' t = .ok (a, u)

theorem Extends.refl (r : Reader ε β α) : Extends r r := fun _ _ _ h => h

theorem Extends.bind {r r' : Reader ε β α} {k k' : α → Reader ε β γ}
    (first : Extends r r') (next : ∀ a, Extends (k a) (k' a)) :
    Extends (r >>= k) (r' >>= k') := by
  intro t c u h
  obtain ⟨a, s, hr, hk⟩ := (bind_ok r k t u c).mp h
  exact (bind_ok r' k' t u c).mpr ⟨a, s, first t a s hr, next a s c u hk⟩

theorem Extends.failIf {bad bad' : Prop} [Decidable bad] [Decidable bad'] (e e' : ε)
    (weaker : bad' → bad) :
    Extends (failIf bad e : Reader ε β Unit) (failIf bad' e') := by
  intro t c u h
  rw [failIf_ok] at h ⊢
  exact ⟨fun h' => h.1 (weaker h'), h.2⟩

theorem Extends.whole {r r' : Reader ε β α} (h : Extends r r') {leftover : ε} {input : List β}
    {a : α} (run : whole r leftover input = .ok a) : whole r' leftover input = .ok a := by
  obtain ⟨t, ht, finished⟩ := (whole_ok r leftover input a).mp run
  exact (whole_ok r' leftover input a).mpr ⟨t, h _ a t ht, finished⟩

theorem times_length {r : Reader ε β α} {n : Nat} {t u : Tape β} {as : List α}
    (h : times r n t = .ok (as, u)) : as.length = n := by
  induction n generalizing t u as with
  | zero =>
    obtain ⟨rfl, _⟩ := (pure_ok _ _ t u).mp h
    rfl
  | succ n ih =>
    simp only [times, bind_ok, pure_ok] at h
    obtain ⟨a, s, _, bs, s', hs, rfl, _⟩ := h
    simp [ih hs]

end Reading
