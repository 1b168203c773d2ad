import Beeros.Exec

/-! Programs that keep a log, watched by an automaton that reads the log: rules for what every run of a program does to
the automaton's phase. The automaton may look at what was logged before an entry. -/

namespace Monitor

variable {ε σ α β E P : Type}

/-- The phase after more entries; `none` when one of them is not accepted. -/
def walk (next : List E → P → E → Option P) : List E → P → List E → Option P
  | _, p, [] => some p
  | log, p, e :: es => (next log p e).bind fun p' => walk next (log ++ [e]) p' es

theorem walk_append {next : List E → P → E → Option P} {log : List E} {p p' : P} {es es' : List E}
    (h : walk next log p es = some p') : walk next log p (es ++ es') = walk next (log ++ es) p' es' := by
  induction es generalizing log p with
  | nil =>
      cases h
      rw [List.nil_append, List.append_nil]
  | cons e es ih =>
      obtain ⟨q, hq, hrest⟩ := Option.bind_eq_some_iff.mp h
      rw [List.cons_append, walk, hq, Option.bind_some, ih hrest, List.append_assoc, List.singleton_append]

theorem walk_singleton {next : List E → P → E → Option P} (log : List E) (p : P) (e : E) :
    walk next log p [e] = next log p e := by
  rw [walk]
  cases next log p e <;> rfl

section Rules

variable (next : List E → P → E → Option P) (log : σ → List E)

/-- From the phase `p` the automaton accepts whatever `m` logs. A run that returns `a` ends in a phase with `Q a`, one
that throws `e` in a phase with `R e`. -/
def Triple (p : P) (m : EStateM ε σ α) (Q : α → P → Prop) (R : ε → P → Prop) : Prop :=
  ∀ s, ∃ es p', log (Exec.final (m s)) = log s ++ es ∧ walk next (log s) p es = some p' ∧
    (∀ a s', m s = .ok a s' → Q a p') ∧ ∀ e s', m s = .error e s' → R e p'

variable {next log} {p : P} {m : EStateM ε σ α} {Q Q' : α → P → Prop} {R R' : ε → P → Prop}

theorem triple_pure {a : α} (h : Q a p) : Triple next log p (pure a) Q R := by
  intro s
  refine ⟨[], p, (List.append_nil _).symm, rfl, ?_, ?_⟩
  · intro b s' hb
    rw [← (Exec.pure_ok.mp hb).1]
    exact h
  · intro e s' he
    cases he

theorem triple_throw {e : ε} (h : R e p) : Triple next log p (throw e : EStateM ε σ α) Q R := by
  intro s
  refine ⟨[], p, (List.append_nil _).symm, rfl, ?_, ?_⟩
  · intro b s' hb
    exact absurd hb Exec.throw_ok
  · intro e' s' he
    cases he
    exact h

theorem Triple.bind {Q' : β → P → Prop} {f : α → EStateM ε σ β} (hm : Triple next log p m Q R)
    (hf : ∀ a p', Q a p' → Triple next log p' (f a) Q' R) : Triple next log p (m >>= f) Q' R := by
  intro s
  obtain ⟨es, p', hlog, hwalk, hok, herror⟩ := hm s
  cases hs : m s with
  | ok a t =>
      rw [hs] at hlog
      obtain ⟨es', p'', hlog', hwalk', hok', herror'⟩ := hf a p' (hok a t hs) t
      change log t = log s ++ es at hlog
      rw [Exec.bind_apply hs]
      refine ⟨es ++ es', p'', ?_, ?_, hok', herror'⟩
      · rw [hlog', hlog, List.append_assoc]
      · rw [walk_append hwalk, ← hlog]
        exact hwalk'
  | error e t =>
      rw [hs] at hlog
      have hthrow : (m >>= f) s = .error e t := Exec.bind_error.mpr (Or.inl hs)
      rw [hthrow]
      refine ⟨es, p', hlog, hwalk, ?_, ?_⟩
      · intro b s' hb
        cases hb
      · intro e' s' he
        cases he
        exact herror e t hs

/-- A step to one phase, and what follows. -/
theorem Triple.before {f : α → EStateM ε σ β} {p' : P} {Q : β → P → Prop}
    (hm : Triple next log p m (fun _ q => q = p') R) (hf : ∀ a, Triple next log p' (f a) Q R) :
    Triple next log p (m >>= f) Q R :=
  hm.bind fun a _ hq => hq ▸ hf a

theorem Triple.imp (h : Triple next log p m Q R) (hQ : ∀ a p', Q a p' → Q' a p') (hR : ∀ e p', R e p' → R' e p') :
    Triple next log p m Q' R' := by
  intro s
  obtain ⟨es, p', hlog, hwalk, hok, herror⟩ := h s
  exact ⟨es, p', hlog, hwalk, fun a s' hs => hQ a p' (hok a s' hs), fun e s' hs => hR e p' (herror e s' hs)⟩

theorem Triple.ite {c : Prop} [Decidable c] {m' : EStateM ε σ α} (h : c → Triple next log p m Q R)
    (h' : ¬c → Triple next log p m' Q R) : Triple next log p (if c then m else m') Q R := by
  split_ifs with hc
  · exact h hc
  · exact h' hc

/-- A program that logs nothing. -/
theorem triple_silent (h : ∀ s, log (Exec.final (m s)) = log s) (hQ : ∀ a s s', m s = .ok a s' → Q a p)
    (hR : ∀ e s s', m s = .error e s' → R e p) : Triple next log p m Q R := by
  intro s
  exact ⟨[], p, (h s).trans (List.append_nil _).symm, rfl, fun a s' => hQ a s s', fun e s' => hR e s s'⟩

/-- A program that always returns. -/
theorem Triple.total (h : Triple next log p m Q R) (hok : ∀ s, ∃ a s', m s = .ok a s') : Triple next log p m Q R' := by
  intro s
  obtain ⟨es, p', hlog, hwalk, hQ, -⟩ := h s
  refine ⟨es, p', hlog, hwalk, hQ, ?_⟩
  intro e s' he
  obtain ⟨a, s'', ha⟩ := hok s
  rw [ha] at he
  cases he

/-- What is known of the values that a program returns. -/
theorem Triple.and_ok {G : α → Prop} (h : Triple next log p m Q R) (hG : ∀ a s s', m s = .ok a s' → G a) :
    Triple next log p m (fun a p' => Q a p' ∧ G a) R := by
  intro s
  obtain ⟨es, p', hlog, hwalk, hok, herror⟩ := h s
  exact ⟨es, p', hlog, hwalk, fun a s' hs => ⟨hok a s' hs, hG a s s' hs⟩, herror⟩

/-- Steps in a row, each of which keeps the phases with `I`. -/
theorem triple_forM {I : P → Prop} {f : β → EStateM ε σ Unit} {l : List β}
    (h : ∀ b ∈ l, ∀ p, I p → Triple next log p (f b) (fun _ => I) R) (hp : I p) :
    Triple next log p (l.forM f) (fun _ => I) R := by
  induction l generalizing p with
  | nil => exact triple_pure hp
  | cons b l ih =>
      show Triple next log p (f b >>= fun _ => l.forM f) (fun _ => I) R
      refine (h b List.mem_cons_self p hp).bind fun _ p' hp' => ?_
      exact ih (fun b hb => h b (List.mem_cons_of_mem _ hb)) hp'

end Rules

section Views

variable (view : σ → P)

/-- From any state that looks like `p`, `m` returns with `Q` or throws with `R`. Nothing else is said of the states. -/
def Leads (p : P) (m : EStateM ε σ α) (Q : α → P → Prop) (R : ε → P → Prop) : Prop :=
  ∀ s, view s = p → (∃ a s', m s = .ok a s' ∧ Q a (view s')) ∨ ∃ e s', m s = .error e s' ∧ R e (view s')

variable {view} {p : P} {m : EStateM ε σ α} {Q : α → P → Prop} {R : ε → P → Prop}

theorem leads_pure {a : α} (h : Q a p) : Leads view p (pure a) Q R := by
  rintro s rfl
  exact Or.inl ⟨a, s, rfl, h⟩

theorem leads_throw {e : ε} (h : R e p) : Leads view p (throw e : EStateM ε σ α) Q R := by
  rintro s rfl
  exact Or.inr ⟨e, s, rfl, h⟩

theorem Leads.bind {Q' : β → P → Prop} {f : α → EStateM ε σ β} (hm : Leads view p m Q R)
    (hf : ∀ a p', Q a p' → Leads view p' (f a) Q' R) : Leads view p (m >>= f) Q' R := by
  intro s hs
  rcases hm s hs with ⟨a, t, hok, ha⟩ | ⟨e, t, herror, he⟩
  · rw [Exec.bind_apply hok]
    exact hf a (view t) ha t rfl
  · exact Or.inr ⟨e, t, Exec.bind_error.mpr (Or.inl herror), he⟩

/-- A step of which all is known, and what follows. -/
theorem Leads.before {Q' : β → P → Prop} {f : α → EStateM ε σ β} {v : α} {p' : P}
    (hm : Leads view p m (fun a q => a = v ∧ q = p') R) (hf : Leads view p' (f v) Q' R) :
    Leads view p (m >>= f) Q' R := by
  refine hm.bind fun a q hq => ?_
  obtain ⟨rfl, rfl⟩ := hq
  exact hf

theorem Leads.imp {Q' : α → P → Prop} (h : Leads view p m Q R) (hQ : ∀ a p', Q a p' → Q' a p') :
    Leads view p m Q' R := by
  intro s hs
  rcases h s hs with ⟨a, s', hok, ha⟩ | herror
  · exact Or.inl ⟨a, s', hok, hQ a (view s') ha⟩
  · exact Or.inr herror

theorem Leads.ite {c : Prop} [Decidable c] {m' : EStateM ε σ α} (h : c → Leads view p m Q R)
    (h' : ¬c → Leads view p m' Q R) : Leads view p (if c then m else m') Q R := by
  split_ifs with hc
  · exact h hc
  · exact h' hc

end Views

end Monitor
