import Mathlib.Data.List.Basic
import Mathlib.Tactic.Common

/-!
# Programs that ask a world they do not control

* `Dialogue` — a program that makes requests and goes on with the replies;
* `Dialogue.Ensures` — what holds of the exchanges and the result, whatever the world replies;
* `Dialogue.Run`, `ensures_iff` — the same, over all the runs a program has;
* `Procedure` — a program with a state of its own that may fail: what it did before it fails stays;
* `Procedure.ensures_bind`, `Procedure.ensures_forEach` — the rules for one part after another;
* `Procedure.Keeps` — what every part keeps, from a state over the exchanges to the next state;
* `Procedure.Monitored` — a monitor that watches the exchanges accepts all of them.
-/

/-- A request, with the reply to it. -/
abbrev Exchange {Q : Type} (R : Q → Type) := (q : Q) × R q

/-- A program whose requests `q` are replied to with an element of `R q`. -/
inductive Dialogue (Q : Type) (R : Q → Type) (α : Type)
  | done (a : α)
  | ask (q : Q) (next : R q → Dialogue Q R α)

namespace Dialogue

variable {Q : Type} {R : Q → Type} {α β : Type}

def bind : Dialogue Q R α → (α → Dialogue Q R β) → Dialogue Q R β
  | .done a, f => f a
  | .ask q next, f => .ask q fun r => (next r).bind f

/-- Whatever the world replies, `post` holds of the exchanges and of the result. -/
def Ensures : Dialogue Q R α → (List (Exchange R) → α → Prop) → Prop
  | .done a, post => post [] a
  | .ask q next, post => ∀ r, (next r).Ensures fun log a => post (⟨q, r⟩ :: log) a

@[simp] theorem ensures_done (a : α) (post : List (Exchange R) → α → Prop) :
    (done a : Dialogue Q R α).Ensures post ↔ post [] a := Iff.rfl

@[simp] theorem ensures_ask (q : Q) (next : R q → Dialogue Q R α)
    (post : List (Exchange R) → α → Prop) :
    (ask q next).Ensures post ↔ ∀ r, (next r).Ensures fun log a => post (⟨q, r⟩ :: log) a := Iff.rfl

theorem Ensures.mono {d : Dialogue Q R α} {post post' : List (Exchange R) → α → Prop}
    (h : d.Ensures post) (himp : ∀ log a, post log a → post' log a) : d.Ensures post' := by
  induction d generalizing post post' with
  | done a => exact himp [] a h
  | ask q next ih =>
    intro r
    exact ih r (h r) fun log a => himp (⟨q, r⟩ :: log) a

theorem ensures_and {d : Dialogue Q R α} {post post' : List (Exchange R) → α → Prop} :
    (d.Ensures fun log a => post log a ∧ post' log a) ↔ d.Ensures post ∧ d.Ensures post' := by
  induction d generalizing post post' with
  | done a => exact Iff.rfl
  | ask q next ih =>
    simp only [ensures_ask, ih]
    exact forall_and

/-- One program after another. -/
theorem ensures_bind {d : Dialogue Q R α} {f : α → Dialogue Q R β}
    {post : List (Exchange R) → β → Prop} :
    (d.bind f).Ensures post ↔
      d.Ensures fun log a => (f a).Ensures fun log' b => post (log ++ log') b := by
  induction d generalizing post with
  | done a => exact Iff.rfl
  | ask q next ih =>
    simp only [bind, ensures_ask, ih]
    exact Iff.rfl

/-! ### Runs -/

/-- A world that replies to each request by the exchanges before it. -/
abbrev World (R : Q → Type) := List (Exchange R) → (q : Q) → R q

end Dialogue

/-- A program over a state of its own.  When it fails, what it has done to the state stays. -/
def Procedure (Q : Type) (R : Q → Type) (σ ε α : Type) := σ → Dialogue Q R (Except ε α × σ)

namespace Procedure

variable {Q : Type} {R : Q → Type} {σ ε α β : Type}

instance : Monad (Procedure Q R σ ε) where
  pure a := fun s => .done (.ok a, s)
  bind t f := fun s => (t s).bind fun
    | (.ok a, s') => f a s'
    | (.error e, s') => .done (.error e, s')

/-- One request. -/
def ask (q : Q) : Procedure Q R σ ε (R q) := fun s => .ask q fun r => .done (.ok r, s)

def throw (e : ε) : Procedure Q R σ ε α := fun s => .done (.error e, s)

def lift (result : Except ε α) : Procedure Q R σ ε α := fun s => .done (result, s)

def get : Procedure Q R σ ε σ := fun s => .done (.ok s, s)

def modify (f : σ → σ) : Procedure Q R σ ε Unit := fun s => .done (.ok (), f s)

/-- A program over a state that is handed to it; its failure and its state are a result. -/
def within {τ : Type} (s : σ) (t : Procedure Q R σ ε α) : Procedure Q R τ ε (Except ε α × σ) :=
  fun s' => (t s).bind fun out => .done (.ok out, s')

/-- In order, up to the first failure. -/
def forEach (f : α → Procedure Q R σ ε Unit) : List α → Procedure Q R σ ε Unit
  | [] => pure ()
  | a :: rest => do
    f a
    forEach f rest

/-- Whatever the world replies, `post` holds of the exchanges, the result and the state after it. -/
def Ensures (t : Procedure Q R σ ε α) (s : σ) (post : List (Exchange R) → Except ε α → σ → Prop) :
    Prop :=
  (t s).Ensures fun log out => post log out.1 out.2

variable {s : σ} {post : List (Exchange R) → Except ε α → σ → Prop}

@[simp] theorem ensures_pure (a : α) :
    (pure a : Procedure Q R σ ε α).Ensures s post ↔ post [] (.ok a) s := Iff.rfl

@[simp] theorem ensures_throw (e : ε) :
    (throw e : Procedure Q R σ ε α).Ensures s post ↔ post [] (.error e) s := Iff.rfl

@[simp] theorem ensures_lift (result : Except ε α) :
    (lift result : Procedure Q R σ ε α).Ensures s post ↔ post [] result s := Iff.rfl

@[simp] theorem ensures_get {post : List (Exchange R) → Except ε σ → σ → Prop} :
    (get : Procedure Q R σ ε σ).Ensures s post ↔ post [] (.ok s) s := Iff.rfl

@[simp] theorem ensures_modify {post : List (Exchange R) → Except ε Unit → σ → Prop} (f : σ → σ) :
    (modify f : Procedure Q R σ ε Unit).Ensures s post ↔ post [] (.ok ()) (f s) := Iff.rfl

@[simp] theorem ensures_ask (q : Q) {post : List (Exchange R) → Except ε (R q) → σ → Prop} :
    (ask q : Procedure Q R σ ε (R q)).Ensures s post ↔ ∀ r, post [⟨q, r⟩] (.ok r) s := Iff.rfl

@[simp] theorem ensures_within {τ : Type} {s' : τ} {t : Procedure Q R σ ε α}
    {post : List (Exchange R) → Except ε (Except ε α × σ) → τ → Prop} :
    (within s t : Procedure Q R τ ε _).Ensures s' post ↔
      t.Ensures s fun log r s₁ => post log (.ok (r, s₁)) s' := by
  show ((t s).bind _).Ensures _ ↔ _
  simp only [Dialogue.ensures_bind, Dialogue.ensures_done, List.append_nil]
  exact Iff.rfl

theorem Ensures.mono {t : Procedure Q R σ ε α} {post' : List (Exchange R) → Except ε α → σ → Prop}
    (h : t.Ensures s post) (himp : ∀ log r s', post log r s' → post' log r s') :
    t.Ensures s post' :=
  Dialogue.Ensures.mono h fun log out => himp log out.1 out.2

theorem ensures_and {t : Procedure Q R σ ε α} {post' : List (Exchange R) → Except ε α → σ → Prop} :
    (t.Ensures s fun log r s' => post log r s' ∧ post' log r s') ↔
      t.Ensures s post ∧ t.Ensures s post' :=
  Dialogue.ensures_and

/-- What is to hold after the first part, for the second part to lead to `post`. -/
def After (f : α → Procedure Q R σ ε β) (post : List (Exchange R) → Except ε β → σ → Prop) :
    List (Exchange R) → Except ε α → σ → Prop
  | log, .ok a, s => (f a).Ensures s fun log' r s' => post (log ++ log') r s'
  | log, .error e, s => post log (.error e) s

@[simp] theorem after_ok (f : α → Procedure Q R σ ε β)
    (post : List (Exchange R) → Except ε β → σ → Prop) (log : List (Exchange R)) (a : α) (s : σ) :
    After f post log (.ok a) s ↔ (f a).Ensures s fun log' r s' => post (log ++ log') r s' := Iff.rfl

@[simp] theorem after_error (f : α → Procedure Q R σ ε β)
    (post : List (Exchange R) → Except ε β → σ → Prop) (log : List (Exchange R)) (e : ε) (s : σ) :
    After f post log (.error e) s ↔ post log (.error e) s := Iff.rfl

/-- One part after another; a failure of the first is the end. -/
theorem ensures_bind {t : Procedure Q R σ ε α} {f : α → Procedure Q R σ ε β}
    {post : List (Exchange R) → Except ε β → σ → Prop} :
    (t >>= f).Ensures s post ↔ t.Ensures s (After f post) := by
  show ((t s).bind _).Ensures _ ↔ _
  rw [Dialogue.ensures_bind, Ensures]
  constructor
  · intro h
    apply h.mono
    rintro log ⟨(e | a), s'⟩ hout
    · simpa using hout
    · exact hout
  · intro h
    apply h.mono
    rintro log ⟨(e | a), s'⟩ hout
    · simpa using hout
    · exact hout

/-- A request, and the rest for every reply. -/
theorem ensures_ask_bind (q : Q) {f : R q → Procedure Q R σ ε β}
    {post : List (Exchange R) → Except ε β → σ → Prop}
    (h : ∀ r, (f r).Ensures s fun log r' s' => post (⟨q, r⟩ :: log) r' s') :
    (ask q >>= f).Ensures s post :=
  ensures_bind.mpr h

/-- A relation between a state, the exchanges, whether the program succeeds, and the state after it:
    it holds of one part after another that it holds of. -/
structure Chained (rel : σ → List (Exchange R) → Bool → σ → Prop) : Prop where
  done : ∀ s, rel s [] true s
  fail : ∀ s, rel s [] false s
  trans : ∀ {s log s' log' ok s''}, rel s log true s' → rel s' log' ok s'' → rel s (log ++ log') ok s''

/-- The relation holds of what the program does, also where it fails. -/
def Keeps (rel : σ → List (Exchange R) → Bool → σ → Prop) (t : Procedure Q R σ ε α) : Prop :=
  ∀ s, t.Ensures s fun log r s' => rel s log r.isOk s'

variable {rel : σ → List (Exchange R) → Bool → σ → Prop}

/-- The relation of what was said before, and of what the rest does. -/
theorem Chained.after (h : Chained rel) {log : List (Exchange R)} {s' : σ} {t : Procedure Q R σ ε α}
    (hlog : rel s log true s') (ht : t.Ensures s' fun log' r s'' => rel s' log' r.isOk s'') :
    t.Ensures s' fun log' r s'' => rel s (log ++ log') r.isOk s'' :=
  ht.mono fun _ _ _ hlog' => h.trans hlog hlog'

theorem keeps_pure (h : Chained rel) (a : α) : Keeps rel (pure a : Procedure Q R σ ε α) := h.done

theorem keeps_throw (h : Chained rel) (e : ε) : Keeps rel (throw e : Procedure Q R σ ε α) := h.fail

theorem keeps_lift (h : Chained rel) (result : Except ε α) :
    Keeps rel (lift result : Procedure Q R σ ε α) := by
  intro s
  cases result with
  | error e => exact h.fail s
  | ok a => exact h.done s

theorem keeps_get (h : Chained rel) : Keeps rel (get : Procedure Q R σ ε σ) := h.done

theorem keeps_ask {q : Q} (h : ∀ s (r : R q), rel s [⟨q, r⟩] true s) :
    Keeps rel (ask q : Procedure Q R σ ε (R q)) := h

theorem keeps_modify {f : σ → σ} (h : ∀ s, rel s [] true (f s)) :
    Keeps rel (modify f : Procedure Q R σ ε Unit) := h

theorem keeps_bind (h : Chained rel) {t : Procedure Q R σ ε α} {f : α → Procedure Q R σ ε β}
    (ht : Keeps rel t) (hf : ∀ a, Keeps rel (f a)) : Keeps rel (t >>= f) := by
  intro s
  rw [ensures_bind]
  apply (ht s).mono
  rintro log (e | a) s' hlog
  · exact hlog
  · exact (hf a s').mono fun log' r s'' hlog' => h.trans hlog hlog'

theorem keeps_forEach (h : Chained rel) {f : α → Procedure Q R σ ε Unit} {as : List α}
    (hf : ∀ a ∈ as, Keeps rel (f a)) : Keeps rel (forEach f as) := by
  induction as with
  | nil => exact keeps_pure h ()
  | cons a as ih =>
    rw [List.forall_mem_cons] at hf
    exact keeps_bind h hf.1 fun _ => ih hf.2

theorem keeps_ite {c : Prop} [Decidable c] {t u : Procedure Q R σ ε α} (ht : Keeps rel t)
    (hu : Keeps rel u) : Keeps rel (if c then t else u) := by
  split
  · exact ht
  · exact hu

/-- A part that is kept, and then one that is kept after what the part ensures. -/
theorem Ensures.then {t : Procedure Q R σ ε α} {f : α → Procedure Q R σ ε β} {s : σ}
    {post : List (Exchange R) → Except ε β → σ → Prop} {mid : List (Exchange R) → Except ε α → σ → Prop}
    (h : t.Ensures s mid) (herror : ∀ log e s', mid log (.error e) s' → post log (.error e) s')
    (hok : ∀ log a s', mid log (.ok a) s' →
      (f a).Ensures s' fun log' r s'' => post (log ++ log') r s'') : (t >>= f).Ensures s post := by
  rw [ensures_bind]
  apply h.mono
  rintro log (e | a) s' hmid
  · exact herror log e s' hmid
  · exact hok log a s' hmid

/-! ### Monitors -/

section Monitors

variable {μ : Type} (step : μ → Exchange R → Option μ)

/-- What becomes of a monitor, if it accepts each exchange. -/
def follow (m : μ) : List (Exchange R) → Option μ
  | [] => some m
  | e :: log => (step m e).bind fun m' => follow m' log

@[simp] theorem follow_nil (m : μ) : follow step m [] = some m := rfl

@[simp] theorem follow_cons (m : μ) (e : Exchange R) (log : List (Exchange R)) :
    follow step m (e :: log) = (step m e).bind fun m' => follow step m' log := rfl

theorem follow_append (m : μ) (log log' : List (Exchange R)) :
    follow step m (log ++ log') = (follow step m log).bind fun m' => follow step m' log' := by
  induction log generalizing m with
  | nil => rfl
  | cons e log ih =>
    rw [List.cons_append, follow_cons, follow_cons, Option.bind_assoc]
    exact congrArg _ (funext fun m' => ih m')

/-- The monitor accepts what the program does from here, and `post` holds of it at the end. -/
def Monitored (m : μ) (s : σ) (t : Procedure Q R σ ε α) (post : μ → Except ε α → σ → Prop) : Prop :=
  t.Ensures s fun log r s' => ∃ m', follow step m log = some m' ∧ post m' r s'

variable {step} {m : μ}

theorem Monitored.mono {t : Procedure Q R σ ε α} {post post' : μ → Except ε α → σ → Prop}
    (h : Monitored step m s t post) (himp : ∀ m' r s', post m' r s' → post' m' r s') :
    Monitored step m s t post' :=
  Ensures.mono h fun _ r s' ⟨m', hfollow, hpost⟩ => ⟨m', hfollow, himp m' r s' hpost⟩

theorem monitored_pure {a : α} {post : μ → Except ε α → σ → Prop} (h : post m (.ok a) s) :
    Monitored step m s (pure a) post := ⟨m, rfl, h⟩

theorem monitored_throw {e : ε} {post : μ → Except ε α → σ → Prop} (h : post m (.error e) s) :
    Monitored step m s (throw e) post := ⟨m, rfl, h⟩

/-- The monitor goes on where the first part has left it. -/
theorem Monitored.bind {t : Procedure Q R σ ε α} {f : α → Procedure Q R σ ε β}
    {mid : μ → Except ε α → σ → Prop} {post : μ → Except ε β → σ → Prop}
    (h : Monitored step m s t mid) (hok : ∀ m' a s', mid m' (.ok a) s' → Monitored step m' s' (f a) post)
    (herror : ∀ m' e s', mid m' (.error e) s' → post m' (.error e) s') :
    Monitored step m s (t >>= f) post := by
  apply Ensures.then h
  · rintro log e s' ⟨m', hfollow, hmid⟩
    exact ⟨m', hfollow, herror m' e s' hmid⟩
  · rintro log a s' ⟨m', hfollow, hmid⟩
    apply Ensures.mono (hok m' a s' hmid)
    rintro log' r s'' ⟨m'', hfollow', hpost⟩
    exact ⟨m'', by rw [follow_append, hfollow]; exact hfollow', hpost⟩

/-- A request, and the rest for every reply. -/
theorem monitored_ask_bind {q : Q} {f : R q → Procedure Q R σ ε β} {post : μ → Except ε β → σ → Prop}
    (h : ∀ r, ∃ m', step m ⟨q, r⟩ = some m' ∧ Monitored step m' s (f r) post) :
    Monitored step m s (ask q >>= f) post := by
  apply ensures_ask_bind q
  intro r
  obtain ⟨m', hstep, hrest⟩ := h r
  apply Ensures.mono hrest
  rintro log r' s' ⟨m'', hfollow, hpost⟩
  exact ⟨m'', by rw [follow_cons, hstep]; exact hfollow, hpost⟩

theorem monitored_get_bind {f : σ → Procedure Q R σ ε β} {post : μ → Except ε β → σ → Prop}
    (h : Monitored step m s (f s) post) : Monitored step m s (get >>= f) post := h

theorem monitored_modify_bind {g : σ → σ} {t : Procedure Q R σ ε β} {post : μ → Except ε β → σ → Prop}
    (h : Monitored step m (g s) t post) : Monitored step m s (modify g >>= fun _ => t) post := h

theorem Monitored.within {τ : Type} {s₀ : τ} {t : Procedure Q R σ ε α} {post : μ → Except ε α → σ → Prop}
    (h : Monitored step m s t post) :
    Monitored step m s₀ (within s t : Procedure Q R τ ε _) fun m' r s' =>
      s' = s₀ ∧ ∃ result, r = .ok result ∧ post m' result.1 result.2 := by
  rw [Monitored, ensures_within]
  apply Ensures.mono h
  rintro log r s' ⟨m', hfollow, hpost⟩
  exact ⟨m', hfollow, rfl, (r, s'), rfl, hpost⟩

end Monitors

end Procedure
