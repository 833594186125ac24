import CSLiS.Lib.Exec
import CSLiS.Lib.Crew

/-!
# Routines that run beside each other

A routine is a tree: an operation, and what follows on each of its outcomes. Everything that is taken is
entered in an account of the call. A routine settles an account if every path of it does only what the account
allows and ends in a good account. Calls of routines that settle run beside each other on a shared state.
-/

namespace CSLiS.Lib.Path
open Exec Crew

/- A path ends at `ret`. It is not followed beyond `cut`. -/
inductive Prog (O : Type*)
  | ret
  | cut
  | op (o : O) (next : Bool → Prog O)

namespace Prog

variable {O : Type*}

def act (o : O) (p : Prog O) : Prog O := .op o fun _ => p
def attempt (o : O) (fails succeeds : Prog O) : Prog O := .op o fun b => if b then succeeds else fails
def test (o : O) (yes no : Prog O) : Prog O := .op o fun b => if b then yes else no

def done : Prog O → Bool
  | .ret => true
  | _ => false

end Prog

/- What an operation enters in an account, and when it may be done. -/
structure Rules (O A : Type*) where
  needs : O → A → Prop
  after : O → Bool → A → A

section Account

variable {O A : Type*} (R : Rules O A) (good : A → Prop)

def Settles : Prog O → A → Prop
  | .ret, a => good a
  | .cut, _ => True
  | .op o next, a => R.needs o a ∧ ∀ b, Settles (next b) (R.after o b a)

variable {R} {good} {o : O} {p q : Prog O} {a : A}

theorem settles_act (h : R.after o true a = R.after o false a) :
    Settles R good (.act o p) a ↔ R.needs o a ∧ Settles R good p (R.after o false a) := by
  rw [Prog.act,Settles]
  exact and_congr_right fun _ => ⟨fun hp => hp false,fun hp b => by cases b <;> [exact hp; exact h ▸ hp]⟩

theorem settles_attempt : Settles R good (.attempt o p q) a ↔
    R.needs o a ∧ Settles R good p (R.after o false a) ∧ Settles R good q (R.after o true a) := by
  rw [Prog.attempt,Settles]
  exact and_congr_right fun _ => ⟨fun h => ⟨h false,h true⟩,fun h b => by cases b <;> [exact h.1; exact h.2]⟩

theorem settles_test : Settles R good (.test o p q) a ↔
    R.needs o a ∧ Settles R good p (R.after o true a) ∧ Settles R good q (R.after o false a) := by
  rw [Prog.test,Settles]
  exact and_congr_right fun _ => ⟨fun h => ⟨h true,h false⟩,fun h b => by cases b <;> [exact h.2; exact h.1]⟩

end Account

/-! ### Calls beside each other -/

structure Call (O A : Type*) where
  prog : Prog O
  acct : A

structure Sys (S O A : Type*) where
  shared : S
  calls : List (Call O A)

/- A call is made, does its next operation with an outcome, or something else happens to the shared state. -/
inductive Act (P E : Type*)
  | call (p : P)
  | step (i : ℕ) (b : Bool)
  | other (e : E)

/- What operations and other events do to the shared state. -/
structure World (S O A P E : Type*) where
  rules : Rules O A
  code : P → Prog O
  idle : A
  exec : O → Bool → S → Option S
  other : E → S → S

section Runs

variable {S O A P E : Type*} (W : World S O A P E)

def step (s : Sys S O A) : Act P E → Option (Sys S O A)
  | .call p => some { s with calls := s.calls ++ [⟨W.code p,W.idle⟩] }
  | .step i b =>
      match s.calls[i]? with
      | some ⟨.op o next,a⟩ => (W.exec o b s.shared).map fun t => ⟨t,s.calls.set i ⟨next b,W.rules.after o b a⟩⟩
      | _ => none
  | .other e => some { s with shared := W.other e s.shared }

/- What holds of the shared state and the accounts together. -/
structure Keeps (I : S → List A → Prop) : Prop where
  call : ∀ s as, I s as → I s (as ++ [W.idle])
  step : ∀ s as i a o b t, I s as → as[i]? = some a → W.rules.needs o a → W.exec o b s = some t →
    I t (as.set i (W.rules.after o b a))
  other : ∀ s as e, I s as → I (W.other e s) as

variable {W} {good : A → Prop} {I : S → List A → Prop} {s t : Sys S O A} {as : List (Act P E)} {a : Act P E}

/- Every call settles its account, and the accounts fit the shared state. -/
structure Settled (R : Rules O A) (good : A → Prop) (I : S → List A → Prop) (s : Sys S O A) : Prop where
  calls : ∀ c ∈ s.calls, Settles R good c.prog c.acct
  inv : I s.shared (s.calls.map Call.acct)

theorem step_settled (hcode : ∀ p, Settles W.rules good (W.code p) W.idle) (hI : Keeps W I)
    (hs : Settled W.rules good I s) (h : step W s a = some t) : Settled W.rules good I t := by
  cases a with
  | call p =>
    obtain rfl := Option.some.inj h
    refine ⟨fun c hc => ?_,?_⟩
    · rcases List.mem_append.mp hc with hc | hc
      · exact hs.calls c hc
      · obtain rfl := List.mem_singleton.mp hc
        exact hcode p
    · simp only [List.map_append,List.map_cons,List.map_nil]
      exact hI.call _ _ hs.inv
  | other e =>
    obtain rfl := Option.some.inj h
    exact ⟨hs.calls,hI.other _ _ e hs.inv⟩
  | step i b =>
    simp only [step] at h
    split at h
    · next o next a hc =>
      obtain ⟨u,hu,rfl⟩ := Option.map_eq_some_iff.mp h
      obtain ⟨hneed,hnext⟩ := hs.calls _ (List.mem_of_getElem? hc)
      refine ⟨fun c hm => ?_,?_⟩
      · rcases List.mem_or_eq_of_mem_set hm with hm | rfl
        · exact hs.calls c hm
        · exact hnext b
      · have hacct : (s.calls.map Call.acct)[i]? = some a := by rw [List.getElem?_map,hc]; rfl
        rw [List.map_set]
        exact hI.step _ _ i a o b u hs.inv hacct hneed hu
    · cases h

/-- In every run the calls that have returned have a good account, and the accounts fit the shared state. -/
theorem run_settled (hcode : ∀ p, Settles W.rules good (W.code p) W.idle) (hI : Keeps W I)
    (hs : Settled W.rules good I s) (h : exec (step W) s as = some t) : Settled W.rules good I t :=
  exec_invariant (fun _ _ _ hu hstep => step_settled hcode hI hu hstep) hs h

theorem Settled.returned {R : Rules O A} (hs : Settled R good I s) {c : Call O A} (hc : c ∈ s.calls)
    (hd : c.prog.done = true) : good c.acct := by
  have h := hs.calls c hc
  obtain ⟨prog,acct⟩ := c
  cases prog with
  | ret => exact h
  | cut => exact Bool.noConfusion hd
  | op o next => exact Bool.noConfusion hd

end Runs

/-! ### Sums over the accounts -/

section Sums

variable {A : Type*} {f : A → ℕ} {l : List A} {a b : A}

theorem total_append_zero (h : f a = 0) (l : List A) : total f (l ++ [a]) = total f l := by
  simp [total,h]

theorem total_eq_zero (h : ∀ a ∈ l, f a = 0) : total f l = 0 := by
  induction l with
  | nil => rfl
  | cons a l ih =>
    have ha := h a List.mem_cons_self
    have hl := ih fun b hb => h b (List.mem_cons_of_mem _ hb)
    simp only [total] at hl
    simp only [total,List.map_cons,List.sum_cons,ha,hl]

end Sums

end CSLiS.Lib.Path
