/-!
# Running actions

Sources, evaluations and decodes are actions on a state that may end in a fault and then leave
the state as it was at that moment. Here is what each way of putting such actions together does
when it is run.
-/

set_option autoImplicit false

namespace ByteGrammar.Stepwise

variable {ε σ α β : Type}

theorem pure_run (a : α) (s : σ) : (pure a : ExceptT ε (StateM σ) α) s = (.ok a,s) := rfl

theorem get_run (s : σ) : (get : ExceptT ε (StateM σ) σ) s = (.ok s,s) := rfl

theorem set_run (s t : σ) : (set t : ExceptT ε (StateM σ) PUnit) s = (.ok ⟨⟩,t) := rfl

theorem modify_run (f : σ → σ) (s : σ) :
    (modify f : ExceptT ε (StateM σ) PUnit) s = (.ok ⟨⟩,f s) := rfl

theorem lift_run (m : StateM σ α) (s : σ) :
    (liftM m : ExceptT ε (StateM σ) α) s = (.ok (m s).1,(m s).2) := rfl

theorem bind_run (m : ExceptT ε (StateM σ) α) (f : α → ExceptT ε (StateM σ) β) (s : σ) :
    (m >>= f) s = match m s with
      | (.ok a,t) => f a t
      | (.error e,t) => (.error e,t) := by
  change (match (m s : Except ε α × σ) with
    | (r,t) => (ExceptT.bindCont f r : StateM σ (Except ε β)) t) = _
  rcases m s with ⟨_ | _, t⟩ <;> rfl

theorem map_run (f : α → β) (m : ExceptT ε (StateM σ) α) (s : σ) :
    (f <$> m) s = match m s with
      | (.ok a,t) => (.ok (f a),t)
      | (.error e,t) => (.error e,t) := by
  change (match (m s : Except ε α × σ) with
    | (r,t) => ((match r with
      | .ok a => pure (.ok (f a))
      | .error e => pure (.error e) : StateM σ (Except ε β))) t) = _
  rcases m s with ⟨_ | _, t⟩ <;> rfl

theorem catch_run (m : ExceptT ε (StateM σ) α) (handle : ε → ExceptT ε (StateM σ) α) (s : σ) :
    (tryCatch m handle) s = match m s with
      | (.ok a,t) => (.ok a,t)
      | (.error e,t) => handle e t := by
  change (match (m s : Except ε α × σ) with
    | (r,t) => ((match r with
      | .ok a => pure (.ok a)
      | .error e => handle e : StateM σ (Except ε α))) t) = _
  rcases m s with ⟨_ | _, t⟩ <;> rfl

theorem bind_ok {m : ExceptT ε (StateM σ) α} {f : α → ExceptT ε (StateM σ) β} {s t : σ} {b : β} :
    (m >>= f) s = (.ok b,t) ↔ ∃ a u, m s = (.ok a,u) ∧ f a u = (.ok b,t) := by
  rw [bind_run]
  rcases m s with ⟨e | a, u⟩
  · constructor
    · intro h
      cases h
    · rintro ⟨_,_,h,_⟩
      cases h
  · constructor
    · exact fun h => ⟨a,u,rfl,h⟩
    · rintro ⟨_,_,h,k⟩
      cases h
      exact k

theorem run_ok {r : Except ε α × σ} (h : r.1.isOk) : ∃ a t, r = (.ok a,t) := by
  obtain ⟨_ | a,t⟩ := r
  · cases h
  · exact ⟨a,t,rfl⟩

theorem run_fault {r : Except ε α × σ} (h : r.1.isOk = false) : ∃ e t, r = (.error e,t) := by
  obtain ⟨e | _,t⟩ := r
  · exact ⟨e,t,rfl⟩
  · cases h

theorem pure_ok {a b : α} {s t : σ} :
    (pure a : ExceptT ε (StateM σ) α) s = (.ok b,t) ↔ a = b ∧ s = t := by
  rw [pure_run, Prod.mk.injEq, Except.ok.injEq]

class Lasting (R : σ → σ → Prop) : Prop where
  refl : ∀ s, R s s
  trans : ∀ {s t u}, R s t → R t u → R s u

def Keeps (R : σ → σ → Prop) (m : ExceptT ε (StateM σ) α) : Prop := ∀ s, R s (m s).2

theorem Keeps.mono {R Q : σ → σ → Prop} {m : ExceptT ε (StateM σ) α} (hm : Keeps R m)
    (h : ∀ {s t}, R s t → Q s t) : Keeps Q m := fun s => h (hm s)

theorem Keeps.of_run {R : σ → σ → Prop} {m : ExceptT ε (StateM σ) α} (hm : Keeps R m)
    {s t : σ} {r : Except ε α} (h : m s = (r,t)) : R s t := by
  have hs := hm s
  rw [h] at hs
  exact hs

section
variable {R : σ → σ → Prop} [Lasting R]

theorem pure_keeps (a : α) : Keeps R (pure a : ExceptT ε (StateM σ) α) :=
  fun s => Lasting.refl s

theorem throw_keeps (e : ε) : Keeps R (throw e : ExceptT ε (StateM σ) α) :=
  fun s => Lasting.refl s

theorem get_keeps : Keeps R (get : ExceptT ε (StateM σ) σ) := fun s => Lasting.refl s

theorem bind_keeps {m : ExceptT ε (StateM σ) α} {f : α → ExceptT ε (StateM σ) β}
    (hm : Keeps R m) (hf : ∀ a, Keeps R (f a)) : Keeps R (m >>= f) := by
  intro s
  have hs := hm s
  rw [bind_run]
  rcases hrun : m s with ⟨e | a, t⟩ <;> rw [hrun] at hs
  · exact hs
  · exact Lasting.trans hs (hf a t)

theorem throw_bind_keeps (e : ε) (f : α → ExceptT ε (StateM σ) β) :
    Keeps R ((throw e : ExceptT ε (StateM σ) α) >>= f) := fun s => Lasting.refl s

end

theorem map_keeps {R : σ → σ → Prop} {m : ExceptT ε (StateM σ) α} (f : α → β)
    (hm : Keeps R m) : Keeps R (f <$> m) := by
  intro s
  have hs := hm s
  rw [map_run]
  rcases hrun : m s with ⟨e | a, t⟩ <;> rw [hrun] at hs <;> exact hs

def FaultsFrom (P : ε → Prop) (m : ExceptT ε (StateM σ) α) (s : σ) : Prop :=
  ∀ e t, m s = (.error e,t) → P e

def Faults (P : ε → Prop) (m : ExceptT ε (StateM σ) α) : Prop := ∀ s, FaultsFrom P m s

section
variable {P : ε → Prop}

theorem sure_faults {m : ExceptT ε (StateM σ) α} (h : ∀ s, ∃ a t, m s = (.ok a,t)) :
    Faults P m := by
  intro s e t hfault
  obtain ⟨a,u,hok⟩ := h s
  cases hok.symm.trans hfault

theorem pure_faults (a : α) : Faults P (pure a : ExceptT ε (StateM σ) α) :=
  sure_faults fun s => ⟨a,s,rfl⟩

theorem get_faults : Faults P (get : ExceptT ε (StateM σ) σ) := sure_faults fun s => ⟨s,s,rfl⟩

theorem throw_faults {e : ε} (h : P e) : Faults P (throw e : ExceptT ε (StateM σ) α) := by
  intro s e' t ht
  cases ht
  exact h

theorem bind_faults_from {m : ExceptT ε (StateM σ) α} {f : α → ExceptT ε (StateM σ) β} {s : σ}
    (hm : FaultsFrom P m s) (hf : ∀ {a t}, m s = (.ok a,t) → FaultsFrom P (f a) t) :
    FaultsFrom P (m >>= f) s := by
  intro e t h
  rw [bind_run] at h
  rcases hrun : m s with ⟨e' | a, u⟩ <;> rw [hrun] at h
  · cases h
    exact hm e t hrun
  · exact hf hrun e t h

theorem bind_faults_ok {m : ExceptT ε (StateM σ) α} {f : α → ExceptT ε (StateM σ) β}
    (hm : Faults P m) (hf : ∀ {s a t}, m s = (.ok a,t) → Faults P (f a)) :
    Faults P (m >>= f) := fun s => bind_faults_from (hm s) fun hrun => hf hrun _

theorem bind_faults {m : ExceptT ε (StateM σ) α} {f : α → ExceptT ε (StateM σ) β}
    (hm : Faults P m) (hf : ∀ a, Faults P (f a)) : Faults P (m >>= f) :=
  bind_faults_ok hm fun _ => hf _

theorem throw_bind_faults {e : ε} (h : P e) (f : α → ExceptT ε (StateM σ) β) :
    Faults P ((throw e : ExceptT ε (StateM σ) α) >>= f) := by
  intro s e' t ht
  cases ht
  exact h

theorem map_faults_from {m : ExceptT ε (StateM σ) α} {s : σ} (f : α → β)
    (hm : FaultsFrom P m s) : FaultsFrom P (f <$> m) s := by
  intro e t h
  rw [map_run] at h
  rcases hrun : m s with ⟨e' | a, u⟩ <;> rw [hrun] at h
  · cases h
    exact hm e t hrun
  · cases h

theorem map_faults {m : ExceptT ε (StateM σ) α} (f : α → β) (hm : Faults P m) :
    Faults P (f <$> m) := fun s => map_faults_from f (hm s)

end

/-- From related states of which the first is as required, the action comes to the same result
and to related states, unless it ends in a spoilt fault from the first one. -/
def BlindUnless (spoilt : ε → Prop) (R : σ → σ → Prop) (pre : σ → Prop)
    (m : ExceptT ε (StateM σ) α) : Prop :=
  ∀ s t, R s t → pre s →
    (∃ e, (m s).1 = .error e ∧ spoilt e) ∨ ((m t).1 = (m s).1 ∧ R (m s).2 (m t).2)

abbrev Blind (R : σ → σ → Prop) (pre : σ → Prop) (m : ExceptT ε (StateM σ) α) : Prop :=
  BlindUnless (fun _ => False) R pre m

section
variable {spoilt : ε → Prop} {R : σ → σ → Prop} {pre : σ → Prop}

theorem BlindUnless.imp {pre' : σ → Prop} {m : ExceptT ε (StateM σ) α}
    (h : BlindUnless spoilt R pre m) (hpre : ∀ {s}, pre' s → pre s) :
    BlindUnless spoilt R pre' m := fun s t hs hs' => h s t hs (hpre hs')

theorem Blind.same {m : ExceptT ε (StateM σ) α} (h : Blind R pre m) {s t : σ} (hst : R s t)
    (hs : pre s) : (m t).1 = (m s).1 ∧ R (m s).2 (m t).2 :=
  (h s t hst hs).resolve_left fun ⟨_,_,hfalse⟩ => hfalse

theorem blind_of_same {m : ExceptT ε (StateM σ) α}
    (h : ∀ {s t}, R s t → (m t).1 = (m s).1 ∧ R (m s).2 (m t).2) :
    BlindUnless spoilt R pre m := fun _ _ hst _ => .inr (h hst)

theorem pure_blind (a : α) : BlindUnless spoilt R pre (pure a : ExceptT ε (StateM σ) α) :=
  blind_of_same fun hs => ⟨rfl,hs⟩

theorem throw_blind (e : ε) : BlindUnless spoilt R pre (throw e : ExceptT ε (StateM σ) α) :=
  blind_of_same fun hs => ⟨rfl,hs⟩

theorem throw_bind_blind (e : ε) (f : α → ExceptT ε (StateM σ) β) :
    BlindUnless spoilt R pre ((throw e : ExceptT ε (StateM σ) α) >>= f) :=
  blind_of_same fun hs => ⟨rfl,hs⟩

theorem bind_blind {m : ExceptT ε (StateM σ) α} {f : α → ExceptT ε (StateM σ) β}
    (post : α → σ → Prop) (hm : BlindUnless spoilt R pre m)
    (hpost : ∀ {s t a u}, R s t → pre s → m s = (.ok a,u) → post a u)
    (hf : ∀ a, BlindUnless spoilt R (post a) (f a)) : BlindUnless spoilt R pre (m >>= f) := by
  intro s t hst hs
  rw [bind_run, bind_run]
  rcases hm s t hst hs with ⟨e,he,hspoilt⟩ | ⟨hresult,hstate⟩
  · rcases hms : m s with ⟨_ | _, s'⟩ <;> rw [hms] at he <;> cases he
    exact .inl ⟨e,rfl,hspoilt⟩
  · rcases hms : m s with ⟨e | a, s'⟩ <;> rcases hmt : m t with ⟨e' | a', t'⟩ <;>
      rw [hms, hmt] at hresult hstate <;> cases hresult
    · exact .inr ⟨rfl,hstate⟩
    · exact hf a _ _ hstate (hpost hst hs hms)

theorem bind_blind_any {m : ExceptT ε (StateM σ) α} {f : α → ExceptT ε (StateM σ) β}
    (hm : BlindUnless spoilt R pre m) (hf : ∀ a, BlindUnless spoilt R (fun _ => True) (f a)) :
    BlindUnless spoilt R pre (m >>= f) :=
  bind_blind (fun _ _ => True) hm (fun _ _ _ => trivial) hf

theorem map_blind {m : ExceptT ε (StateM σ) α} (f : α → β) (hm : BlindUnless spoilt R pre m) :
    BlindUnless spoilt R pre (f <$> m) := by
  intro s t hst hs
  rw [map_run, map_run]
  rcases hm s t hst hs with ⟨e,he,hspoilt⟩ | ⟨hresult,hstate⟩
  · rcases hms : m s with ⟨_ | _, s'⟩ <;> rw [hms] at he <;> cases he
    exact .inl ⟨e,rfl,hspoilt⟩
  · rcases hms : m s with ⟨e | a, s'⟩ <;> rcases hmt : m t with ⟨e' | a', t'⟩ <;>
      rw [hms, hmt] at hresult hstate <;> cases hresult
    · exact .inr ⟨rfl,hstate⟩
    · exact .inr ⟨rfl,hstate⟩

end

/-- From related states, the second action comes to what `f` makes of the first one's result, and to
related states. -/
def Mirrors (R : σ → σ → Prop) (f : α → β) (m : ExceptT ε (StateM σ) α)
    (n : ExceptT ε (StateM σ) β) : Prop :=
  ∀ s t, R s t → (n t).1 = (m s).1.map f ∧ R (m s).2 (n t).2

section
variable {R : σ → σ → Prop} {γ δ : Type} {m : ExceptT ε (StateM σ) α}
  {n : ExceptT ε (StateM σ) β} {k : α → ExceptT ε (StateM σ) γ}
  {k' : β → ExceptT ε (StateM σ) δ} {f : α → β} {f' : γ → δ}

theorem pure_mirrors {a : α} {b : β} (h : b = f a) :
    Mirrors R f (pure a : ExceptT ε (StateM σ) α) (pure b) :=
  fun _ _ hst => ⟨congrArg Except.ok h,hst⟩

theorem throw_mirrors (e : ε) : Mirrors R f (throw e : ExceptT ε (StateM σ) α) (throw e) :=
  fun _ _ hst => ⟨rfl,hst⟩

theorem throw_bind_mirrors (e : ε) :
    Mirrors R f' ((throw e : ExceptT ε (StateM σ) α) >>= k) (throw e >>= k') :=
  fun _ _ hst => ⟨rfl,hst⟩

theorem Mirrors.ok (h : Mirrors R f m n) {s s' t : σ} {a : α} (hst : R s t)
    (hm : m s = (.ok a,s')) : ∃ t', n t = (.ok (f a),t') ∧ R s' t' := by
  have hrun := h s t hst
  rw [hm] at hrun
  exact ⟨(n t).2,Prod.ext hrun.1 rfl,hrun.2⟩

theorem Mirrors.fault (h : Mirrors R f m n) {s s' t : σ} {e : ε} (hst : R s t)
    (hm : m s = (.error e,s')) : ∃ t', n t = (.error e,t') ∧ R s' t' := by
  have hrun := h s t hst
  rw [hm] at hrun
  exact ⟨(n t).2,Prod.ext hrun.1 rfl,hrun.2⟩

theorem bind_mirrors_ok (hm : Mirrors R f m n)
    (hk : ∀ {s a t}, m s = (.ok a,t) → Mirrors R f' (k a) (k' (f a))) :
    Mirrors R f' (m >>= k) (n >>= k') := by
  intro s t hst
  rw [bind_run, bind_run]
  rcases hms : m s with ⟨e | a, s'⟩
  · obtain ⟨t',hnt,ht'⟩ := hm.fault hst hms
    rw [hnt]
    exact ⟨rfl,ht'⟩
  · obtain ⟨t',hnt,ht'⟩ := hm.ok hst hms
    rw [hnt]
    exact hk hms _ _ ht'

theorem bind_mirrors (hm : Mirrors R f m n) (hk : ∀ a, Mirrors R f' (k a) (k' (f a))) :
    Mirrors R f' (m >>= k) (n >>= k') := bind_mirrors_ok hm fun _ => hk _

theorem map_mirrors {p : α → γ} {q : β → δ} (hm : Mirrors R f m n)
    (h : ∀ a, q (f a) = f' (p a)) : Mirrors R f' (p <$> m) (q <$> n) := by
  intro s t hst
  rw [map_run, map_run]
  rcases hms : m s with ⟨e | a, s'⟩
  · obtain ⟨t',hnt,ht'⟩ := hm.fault hst hms
    rw [hnt]
    exact ⟨rfl,ht'⟩
  · obtain ⟨t',hnt,ht'⟩ := hm.ok hst hms
    rw [hnt]
    exact ⟨congrArg Except.ok (h a),ht'⟩

end

end ByteGrammar.Stepwise
