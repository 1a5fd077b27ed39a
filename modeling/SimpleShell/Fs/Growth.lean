import SimpleShell.Fs.FreeMap

/-!
# What a reservation does

`inode_reserve` walks over pointers, some in the inode and some in index
blocks, and fills the null ones. The relations here describe such a walk for
any family of pointers `V : σ → Nat`, so that one lemma each composes two walks
and carries a walk over one tree to everything around it.

`Grow` is what holds of every walk, finished or not: pointers stay, new ones
lead to sectors that were free, and of the sectors in use only the index blocks
of the family change, and they only gain pointers. `Outcome` adds how the walk
ends. It wants the null pointers among `need`, in order. With that many sectors
free it fills them all, takes exactly as many, and reports success. With fewer
it takes what there is and reports failure, and what happens next depends on
the first pointer left over: for a data sector nothing, for an index block
sector 0 is cleared.
-/

namespace SimpleShell.Fs

open SimpleShell.Lib

variable {σ : Type} {D : Set Nat} {s s₁ s' : FileSys} {idx : σ → Prop}
  {V V₁ V' : σ → Nat}

/-- Pointers to distinct sectors in use, index blocks holding no bitmap. -/
structure Roots (D : Set Nat) (s : FileSys) (idx : σ → Prop) (V : σ → Nat) :
    Prop where
  used : ∀ a, V a ≠ 0 → s.used (V a)
  inj : ∀ a b, V a ≠ 0 → V a = V b → a = b
  offData : ∀ a, idx a → V a ≠ 0 → V a ∉ D

structure Grow (D : Set Nat) (s s' : FileSys) (idx : σ → Prop) (V V' : σ → Nat) :
    Prop where
  size : s'.cache.size = s.cache.size
  mem : s'.mem = s.mem
  ok : FreeMapOk D s'
  mono : ∀ k, s.used k → s'.used k
  keep : ∀ a, V a ≠ 0 → V' a = V a
  fresh : ∀ a, V a = 0 → V' a ≠ 0 → ¬ s.used (V' a) ∧ s'.used (V' a)
  inj : ∀ a b, V' a ≠ 0 → V' a = V' b → a = b
  frame : ∀ k, s.used k → k ∉ D → k ≠ 0 → (∀ a, idx a → V a ≠ k) →
    s'.content k = s.content k
  keeps : ∀ k, s.used k → k ∉ D → k ≠ 0 → Keeps (s.content k) (s'.content k)
  zeroed : ∀ a, ¬ idx a → V a = 0 → V' a ≠ 0 → s'.content (V' a) = .zeros

theorem Grow.refl (hok : FreeMapOk D s) (hV : Roots D s idx V) :
    Grow D s s idx V V where
  size := rfl
  mem := rfl
  ok := hok
  mono _ hk := hk
  keep _ _ := rfl
  fresh _ h₀ hne := absurd h₀ hne
  inj := hV.inj
  frame _ _ _ _ _ := rfl
  keeps _ _ _ _ := .refl _
  zeroed _ _ h₀ hne := absurd h₀ hne

theorem Grow.used (h : Grow D s s' idx V V') (hV : Roots D s idx V) {a : σ}
    (ha : V' a ≠ 0) : s'.used (V' a) := by
  rcases eq_or_ne (V a) 0 with h₀ | hne
  · exact (h.fresh a h₀ ha).2
  · rw [h.keep a hne]
    exact h.mono _ (hV.used a hne)

theorem Grow.roots (h : Grow D s s' idx V V') (hok : FreeMapOk D s)
    (hV : Roots D s idx V) : Roots D s' idx V' where
  used _ ha := h.used hV ha
  inj := h.inj
  offData a hidx ha := by
    rcases eq_or_ne (V a) 0 with h₀ | hne
    · exact fun hD => (h.fresh a h₀ ha).1 (hok.used_of_mem hD)
    · rw [h.keep a hne]
      exact hV.offData a hidx hne

/-- A pointer after the walk is one from before it or leads to a sector that was
not in use. -/
theorem Grow.eq_of_used (h : Grow D s s' idx V V') {a : σ} (ha : V' a ≠ 0)
    (hused : s.used (V' a)) : V' a = V a := by
  rcases eq_or_ne (V a) 0 with h₀ | hne
  · exact absurd hused (h.fresh a h₀ ha).1
  · exact h.keep a hne

theorem Grow.trans (hok : FreeMapOk D s)
    (h₁ : Grow D s s₁ idx V V₁) (h₂ : Grow D s₁ s' idx V₁ V') :
    Grow D s s' idx V V' where
  size := h₂.size.trans h₁.size
  mem := h₂.mem.trans h₁.mem
  ok := h₂.ok
  mono k hk := h₂.mono k (h₁.mono k hk)
  keep a ha := by rw [h₂.keep a (by rw [h₁.keep a ha]; exact ha), h₁.keep a ha]
  fresh a h₀ ha := by
    rcases eq_or_ne (V₁ a) 0 with h | h
    · obtain ⟨hfree, hused⟩ := h₂.fresh a h ha
      exact ⟨fun hk => hfree (h₁.mono _ hk), hused⟩
    · obtain ⟨hfree, hused⟩ := h₁.fresh a h₀ h
      rw [h₂.keep a h]
      exact ⟨hfree, h₂.mono _ hused⟩
  inj := h₂.inj
  frame k hk hD hk₀ hidx := by
    rw [h₂.frame k (h₁.mono k hk) hD hk₀ fun a ha hak => ?_,
      h₁.frame k hk hD hk₀ hidx]
    have hne : V₁ a ≠ 0 := hak ▸ hk₀
    exact hidx a ha ((h₁.eq_of_used hne (hak ▸ hk)).symm.trans hak)
  keeps k hk hD hk₀ :=
    (h₁.keeps k hk hD hk₀).trans (h₂.keeps k (h₁.mono k hk) hD hk₀)
  zeroed a hidx h₀ ha := by
    rcases eq_or_ne (V₁ a) 0 with h | h
    · exact h₂.zeroed a hidx h ha
    · obtain ⟨hfree, hused⟩ := h₁.fresh a h₀ h
      rw [h₂.keep a h, h₂.frame _ hused (fun hD => hfree (hok.used_of_mem hD)) h,
        h₁.zeroed a hidx h₀ h]
      intro b hb hba
      exact hidx (h₁.inj b a (hba ▸ h) hba ▸ hb)

/-! ## How it ends -/

/-- The pointers of `need` that are still null, in order. -/
def missing (V : σ → Nat) (need : List σ) : List σ :=
  need.filter fun a => V a = 0

theorem missing_append (V : σ → Nat) (m n : List σ) :
    missing V (m ++ n) = missing V m ++ missing V n :=
  List.filter_append ..

theorem missing_congr {need : List σ} (h : ∀ a ∈ need, V' a = V a) :
    missing V' need = missing V need :=
  List.filter_congr fun a ha => by rw [h a ha]

/-- The walk found a sector for every pointer. -/
structure Filled (s s' : FileSys) (V V' : σ → Nat) (need : List σ) : Prop where
  free : s'.freeSectors + (missing V need).length = s.freeSectors
  allocFailures : s'.allocFailures = s.allocFailures
  zero : s'.content 0 = s.content 0
  ne : ∀ a ∈ need, V' a ≠ 0
  exact : ∀ k, s'.used k → s.used k ∨ ∃ a, V a = 0 ∧ V' a = k

/-- The walk ran out of sectors. -/
structure Short (s s' : FileSys) (idx : σ → Prop) (V : σ → Nat) (need : List σ) :
    Prop where
  free : s'.freeSectors = 0
  allocFailures : s.allocFailures < s'.allocFailures
  zero : ∀ a, (missing V need)[s.freeSectors]? = some a →
    (idx a → s'.content 0 = .zeros) ∧ (¬ idx a → s'.content 0 = s.content 0)

structure Outcome (D : Set Nat) (s s' : FileSys) (idx : σ → Prop) (need : List σ)
    (ok : Bool) (V V' : σ → Nat) : Prop where
  grow : Grow D s s' idx V V'
  beyond : ∀ a, a ∉ need → V' a = V a
  enough : (missing V need).length ≤ s.freeSectors →
    ok = true ∧ Filled s s' V V' need
  short : s.freeSectors < (missing V need).length →
    ok = false ∧ Short s s' idx V need

theorem Outcome.le_of_true {need : List σ} {ok : Bool}
    (h : Outcome D s s' idx need ok V V') (hok : ok = true) :
    (missing V need).length ≤ s.freeSectors := by
  rcases Nat.lt_or_ge (s.freeSectors) (missing V need).length with hlt | hle
  · rw [(h.short hlt).1] at hok
    exact Bool.noConfusion hok
  · exact hle

theorem Outcome.lt_of_false {need : List σ} {ok : Bool}
    (h : Outcome D s s' idx need ok V V') (hok : ok = false) :
    s.freeSectors < (missing V need).length := by
  rcases Nat.lt_or_ge (s.freeSectors) (missing V need).length with hlt | hle
  · exact hlt
  · rw [(h.enough hle).1] at hok
    exact Bool.noConfusion hok

/-- The walk takes what is missing, or all there is. -/
theorem Outcome.freeSectors {need : List σ} {ok : Bool}
    (h : Outcome D s s' idx need ok V V') :
    s'.freeSectors = s.freeSectors - (missing V need).length := by
  rcases Nat.lt_or_ge s.freeSectors (missing V need).length with hlt | hle
  · rw [(h.short hlt).2.free]
    omega
  · have := (h.enough hle).2.free
    omega

/-- Nothing is missing, nothing is done. -/
theorem Outcome.refl {need : List σ} (hok : FreeMapOk D s) (hV : Roots D s idx V)
    (hne : ∀ a ∈ need, V a ≠ 0) : Outcome D s s idx need true V V where
  grow := .refl hok hV
  beyond _ _ := rfl
  enough _ := by
    have hmiss : missing V need = [] :=
      List.filter_eq_nil_iff.2 fun a ha => by simpa using hne a ha
    exact ⟨rfl, by rw [hmiss]; rfl, rfl, rfl, hne, fun k hk => .inl hk⟩
  short hlt := by
    have hmiss : missing V need = [] :=
      List.filter_eq_nil_iff.2 fun a ha => by simpa using hne a ha
    rw [hmiss] at hlt
    exact absurd hlt (Nat.not_lt_zero _)

/-- One walk after another that succeeded. -/
theorem Outcome.append {need need' : List σ} {ok : Bool} (hok : FreeMapOk D s)
    (h₁ : Outcome D s s₁ idx need true V V₁)
    (h₂ : Outcome D s₁ s' idx need' ok V₁ V') (hdisj : ∀ a ∈ need', a ∉ need) :
    Outcome D s s' idx (need ++ need') ok V V' := by
  have hmiss : missing V₁ need' = missing V need' :=
    missing_congr fun a ha => h₁.beyond a (hdisj a ha)
  obtain ⟨-, hfill⟩ := h₁.enough (h₁.le_of_true rfl)
  have hfree := hfill.free
  have hlen : (missing V (need ++ need')).length =
      (missing V need).length + (missing V need').length := by
    rw [missing_append, List.length_append]
  refine ⟨h₁.grow.trans hok h₂.grow, fun a ha => ?_, fun hle => ?_, fun hlt => ?_⟩
  · rw [List.mem_append, not_or] at ha
    rw [h₂.beyond a ha.2, h₁.beyond a ha.1]
  · obtain ⟨htrue, hfill'⟩ := h₂.enough (by rw [hmiss]; omega)
    have hfree' := hfill'.free
    rw [hmiss] at hfree'
    refine ⟨htrue, by omega, hfill'.allocFailures.trans hfill.allocFailures,
      hfill'.zero.trans hfill.zero, fun a ha => ?_, fun k hk => ?_⟩
    · rcases List.mem_append.1 ha with ha | ha
      · rw [h₂.grow.keep a (hfill.ne a ha)]
        exact hfill.ne a ha
      · exact hfill'.ne a ha
    · rcases hfill'.exact k hk with hk | ⟨a, h₀, ha⟩
      · rcases hfill.exact k hk with hk | ⟨a, h₀, ha⟩
        · exact .inl hk
        · rcases eq_or_ne k 0 with rfl | hk₀
          · exact .inl hok.mapSector
          · exact .inr ⟨a, h₀, by
              rw [h₂.grow.keep a (by rw [ha]; exact hk₀)]; exact ha⟩
      · rcases eq_or_ne (V a) 0 with hVa | hVa
        · exact .inr ⟨a, hVa, ha⟩
        · rw [h₁.grow.keep a hVa] at h₀
          exact absurd h₀ hVa
  · obtain ⟨hfalse, hshort⟩ := h₂.short (by rw [hmiss]; omega)
    refine ⟨hfalse, hshort.free, ?_, fun a ha => ?_⟩
    · rw [← hfill.allocFailures]
      exact hshort.allocFailures
    · rw [missing_append, List.getElem?_append_right (by omega)] at ha
      rw [← hfill.zero]
      refine hshort.zero a ?_
      rw [hmiss, ← ha]
      congr 1
      omega

/-- A walk that failed does not go on. -/
theorem Outcome.stop {need need' : List σ}
    (h : Outcome D s s' idx need false V V') :
    Outcome D s s' idx (need ++ need') false V V' := by
  have hlt := h.lt_of_false rfl
  obtain ⟨-, hshort⟩ := h.short hlt
  refine ⟨h.grow, fun a ha => ?_, fun hle => ?_, fun _ => ⟨rfl, hshort.free,
    hshort.allocFailures, fun a ha => ?_⟩⟩
  · rw [List.mem_append, not_or] at ha
    exact h.beyond a ha.1
  · rw [missing_append, List.length_append] at hle
    omega
  · rw [missing_append, List.getElem?_append_left hlt] at ha
    exact hshort.zero a ha

/-! ## Single steps -/

/-- A null pointer is given the sector just allocated, cleared. -/
theorem Outcome.alloc [DecidableEq σ] {a₀ : σ} {k : Nat} (hok : FreeMapOk D s)
    (hV : Roots D s idx V) (h₀ : V a₀ = 0) (hk : Allocated D s k s₁) :
    Outcome D s (s₁.writeSector k .zeros) idx [a₀] true V
      (Function.update V a₀ k) := by
  have hused := hk.used hok
  have hk₀ : k ≠ 0 := fun h => hk.free (h ▸ hok.mapSector)
  have hkD : k ∉ D := fun hD => hk.free (hok.used_of_mem hD)
  have hlt : k < s₁.cache.size := by
    have := hk.lt
    have := hok.cnt
    rw [hk.size]
    omega
  have hcont : ∀ j, j ∉ D → j ≠ k →
      (s₁.writeSector k .zeros).content j = s.content j := by
    intro j hj hjk
    rw [FileSys.writeSector_content hlt, Function.update_of_ne hjk, hk.content j hj]
  have hself : (s₁.writeSector k .zeros).content k = .zeros := by
    rw [FileSys.writeSector_content hlt, Function.update_self]
  have hne : ∀ j, s.used j → j ≠ k := fun j hj h => hk.free (h ▸ hj)
  have hfresh : ∀ a, V a = 0 → Function.update V a₀ k a ≠ 0 → a = a₀ := by
    intro a ha hne'
    by_contra haa
    rw [Function.update_of_ne haa] at hne'
    exact hne' ha
  have hmiss : missing V [a₀] = [a₀] := by simp [missing, h₀]
  have hfree := hk.freeSectors hok
  refine ⟨⟨?_, hk.mem, hk.ok.writeSector hkD (.inl hk.off), ?_, ?_, ?_, ?_, ?_, ?_, ?_⟩,
    ?_, ?_, ?_⟩
  · rw [FileSys.writeSector_size, hk.size]
  · exact fun j hj => (hused j).2 (.inr hj)
  · intro a ha
    rw [Function.update_of_ne]
    intro h
    exact ha (h ▸ h₀)
  · intro a ha hne'
    rw [hfresh a ha hne', Function.update_self]
    exact ⟨hk.free, (hused k).2 (.inl rfl)⟩
  · intro a b ha hab
    rcases eq_or_ne a a₀ with rfl | haa
    · rcases eq_or_ne b a with hba | hba
      · exact hba.symm
      · rw [Function.update_self, Function.update_of_ne hba] at hab
        exact absurd hab.symm (hne _ (hV.used b fun h => hk₀ (hab.trans h)))
    · rw [Function.update_of_ne haa] at ha hab
      rcases eq_or_ne b a₀ with rfl | hba
      · rw [Function.update_self] at hab
        exact absurd hab (hne _ (hV.used a ha))
      · rw [Function.update_of_ne hba] at hab
        exact hV.inj a b ha hab
  · intro j hj hjD _ _
    exact hcont j hjD (hne j hj)
  · intro j hj hjD _
    rw [hcont j hjD (hne j hj)]
    exact .refl _
  · intro a _ ha hne'
    rw [hfresh a ha hne', Function.update_self, hself]
  · intro a ha
    exact Function.update_of_ne (fun h => ha (by simp [h])) ..
  · intro _
    refine ⟨rfl, by rw [hmiss]; exact hfree, hk.allocFailures, ?_, ?_, fun j hj => ?_⟩
    · exact hcont 0 (fun h => hok.ne_zero_of_mem h rfl) hk₀.symm
    · intro a ha
      rw [List.mem_singleton.1 ha, Function.update_self]
      exact hk₀
    · rcases (hused j).1 hj with rfl | hj
      · exact .inr ⟨a₀, h₀, Function.update_self ..⟩
      · exact .inl hj
  · intro hlt'
    rw [hmiss] at hlt'
    change s.freeSectors < 1 at hlt'
    omega

/-- What is left behind when the first missing pointer finds no sector. -/
structure Refused (s s' : FileSys) (cleared : Prop) : Prop where
  freeMap : s'.freeMap = s.freeMap
  mem : s'.mem = s.mem
  size : s'.cache.size = s.cache.size
  allocFailures : s.allocFailures < s'.allocFailures
  content : ∀ k, k ≠ 0 → s'.content k = s.content k
  clear : cleared → s'.content 0 = .zeros
  keep : ¬ cleared → s'.content 0 = s.content 0

theorem Outcome.refused {a₀ : σ} {need : List σ} (hok : FreeMapOk D s)
    (hV : Roots D s idx V) (hfull : s.freeSectors = 0) (h₀ : V a₀ = 0)
    (h : Refused s s' (idx a₀)) :
    Outcome D s s' idx (a₀ :: need) false V V := by
  have hmiss : missing V (a₀ :: need) = a₀ :: missing V need := by
    simp [missing, h₀]
  have hused : ∀ k, s'.used k ↔ s.used k := by
    intro k
    unfold FileSys.used
    rw [h.freeMap]
  have hok' : FreeMapOk D s' := by
    refine hok.frame h.freeMap h.size (by rw [h.mem]) (fun _ _ => by rw [h.mem])
      (fun k _ => ?_) fun k hk => h.content k (hok.ne_zero_of_mem hk)
    rcases eq_or_ne k 0 with rfl | hk₀
    · exact .inl hok.offMap_zero
    · rw [h.content k hk₀]; exact .inr (.refl _)
  refine ⟨⟨h.size, h.mem, hok', fun k hk => (hused k).2 hk, fun _ _ => rfl,
    fun _ h₀ hne => absurd h₀ hne, hV.inj, fun k _ _ hk₀ _ => h.content k hk₀,
    fun k _ _ hk₀ => ?_, fun _ _ h₀ hne => absurd h₀ hne⟩, fun _ _ => rfl,
    fun hle => ?_, fun _ => ⟨rfl, ?_, h.allocFailures, fun a ha => ?_⟩⟩
  · rw [h.content k hk₀]; exact .refl _
  · rw [hmiss, hfull] at hle
    exact absurd hle (by simp)
  · unfold FileSys.freeSectors
    rw [h.freeMap]
    exact hfull
  · rw [hmiss, hfull] at ha
    have ha : a₀ = a := by simpa using ha
    subst ha
    exact ⟨h.clear, h.keep⟩

/-- An index block of the family may be written once more, if it keeps its
pointers. -/
theorem Outcome.writeBack {n : σ} {e : Nat} {b : Sector} {need : List σ}
    {ok : Bool} (hok : FreeMapOk D s) (hV : Roots D s idx V) (hidx : idx n)
    (he : V n = e) (hne : e ≠ 0) (hb : Keeps (s₁.content e) b)
    (h : Outcome D s s₁ idx need ok V V') :
    Outcome D s (s₁.writeSector e b) idx need ok V V' := by
  have hused : s.used e := he ▸ hV.used n (he ▸ hne)
  have hD : e ∉ D := he ▸ hV.offData n hidx (he ▸ hne)
  have hlt : e < s₁.cache.size := by
    rw [h.grow.size]
    exact hok.lt_size hused
  have hself : (s₁.writeSector e b).content e = b := by
    rw [FileSys.writeSector_content hlt, Function.update_self]
  have hother : ∀ k, k ≠ e → (s₁.writeSector e b).content k = s₁.content k := by
    intro k hk
    rw [FileSys.writeSector_content hlt, Function.update_of_ne hk]
  refine ⟨⟨?_, h.grow.mem, h.grow.ok.writeSector hD (.inr hb), h.grow.mono,
    h.grow.keep, h.grow.fresh, h.grow.inj, ?_, ?_, ?_⟩, h.beyond, ?_, ?_⟩
  · rw [FileSys.writeSector_size, h.grow.size]
  · intro k hk hkD hk₀ hno
    rw [hother k fun hke => hno n hidx (he.trans hke.symm)]
    exact h.grow.frame k hk hkD hk₀ hno
  · intro k hk hkD hk₀
    rcases eq_or_ne k e with rfl | hke
    · rw [hself]
      exact (h.grow.keeps k hk hkD hk₀).trans hb
    · rw [hother k hke]
      exact h.grow.keeps k hk hkD hk₀
  · intro a hnot h₀ hne'
    rw [hother _ fun hae => (h.grow.fresh a h₀ hne').1 (by rw [hae]; exact hused)]
    exact h.grow.zeroed a hnot h₀ hne'
  · intro hle
    obtain ⟨htrue, hfill⟩ := h.enough hle
    exact ⟨htrue, hfill.free, hfill.allocFailures,
      (hother 0 hne.symm).trans hfill.zero, hfill.ne, hfill.exact⟩
  · intro hshort
    obtain ⟨hfalse, hshort⟩ := h.short hshort
    refine ⟨hfalse, hshort.free, hshort.allocFailures, fun a ha => ?_⟩
    rw [hother 0 hne.symm]
    exact hshort.zero a ha

/-- A walk that failed may lose pointers it had filled. -/
theorem Outcome.forget {W : σ → Nat} {need : List σ}
    (h : Outcome D s s' idx need false V V')
    (hW : ∀ a, W a = V' a ∨ (W a = 0 ∧ V a = 0)) :
    Outcome D s s' idx need false V W := by
  have heq : ∀ a, W a ≠ 0 → W a = V' a := fun a ha =>
    (hW a).resolve_right fun h₀ => ha h₀.1
  refine ⟨⟨h.grow.size, h.grow.mem, h.grow.ok, h.grow.mono, fun a ha => ?_,
    fun a h₀ hne => ?_, fun a b hne hab => ?_, h.grow.frame, h.grow.keeps,
    fun a hnot h₀ hne => ?_⟩, fun a ha => ?_, fun hle => ?_, h.short⟩
  · rw [(hW a).resolve_right fun h₀ => ha h₀.2]
    exact h.grow.keep a ha
  · have := heq a hne
    rw [this] at hne ⊢
    exact h.grow.fresh a h₀ hne
  · have ha := heq a hne
    have hb := heq b (hab ▸ hne)
    rw [ha] at hne hab
    exact h.grow.inj a b hne (hab.trans hb)
  · have := heq a hne
    rw [this] at hne ⊢
    exact h.grow.zeroed a hnot h₀ hne
  · rcases hW a with hWa | ⟨hWa, hVa⟩
    · rw [hWa]; exact h.beyond a ha
    · rw [hWa, hVa]
  · exact absurd (h.enough hle).1 (by simp)

/-- Reading a sector first makes no difference. -/
theorem Outcome.of_readSector {need : List σ} {ok : Bool} {k : Nat}
    (h : Outcome D (s.readSector k).2 s' idx need ok V V') :
    Outcome D s s' idx need ok V V' := by
  have hcont := s.readSector_content k
  refine ⟨⟨?_, h.grow.mem, h.grow.ok, h.grow.mono, h.grow.keep, h.grow.fresh,
    h.grow.inj, fun j hj hD h₀ hno => ?_, fun j hj hD h₀ => ?_, h.grow.zeroed⟩,
    h.beyond, fun hle => ?_, fun hlt => ?_⟩
  · rw [h.grow.size, FileSys.readSector_size]
  · rw [h.grow.frame j hj hD h₀ hno, hcont]
  · rw [← hcont]
    exact h.grow.keeps j hj hD h₀
  · obtain ⟨htrue, hfill⟩ := h.enough hle
    exact ⟨htrue, hfill.free, hfill.allocFailures, by rw [hfill.zero, hcont],
      hfill.ne, hfill.exact⟩
  · obtain ⟨hfalse, hshort⟩ := h.short hlt
    refine ⟨hfalse, hshort.free, hshort.allocFailures, fun a ha => ?_⟩
    rw [← hcont]
    exact hshort.zero a ha

/-! ## Part of a family -/

/-- A walk over part of a family that leaves the rest of its pointers alone is
a walk over the family. -/
theorem Outcome.lift {τ : Type} {idx' : τ → Prop} {W W' : τ → Nat} {need : List τ}
    {ok : Bool} (φ : τ → σ)
    (hidx : ∀ b, idx (φ b) ↔ idx' b) (hW : ∀ b, W b = V (φ b))
    (hW' : ∀ b, W' b = V' (φ b)) (hrest : ∀ a, (∀ b, a ≠ φ b) → V' a = V a)
    (hV : Roots D s idx V) (h : Outcome D s s' idx' need ok W W') :
    Outcome D s s' idx (need.map φ) ok V V' := by
  have hmiss : missing V (need.map φ) = (missing W need).map φ := by
    simp only [missing, List.filter_map]
    congr 1
    refine List.filter_congr fun b _ => ?_
    simp [hW]
  have hlen : (missing V (need.map φ)).length = (missing W need).length := by
    rw [hmiss, List.length_map]
  have hchanged : ∀ a, V a = 0 → V' a ≠ 0 → ∃ b, a = φ b := by
    intro a h₀ hne
    by_contra hno
    exact hne ((hrest a fun b hab => hno ⟨b, hab⟩).trans h₀)
  refine ⟨⟨h.grow.size, h.grow.mem, h.grow.ok, h.grow.mono, ?_, ?_, ?_, ?_,
    h.grow.keeps, ?_⟩, ?_, ?_, ?_⟩
  · intro a ha
    by_cases hex : ∃ b, a = φ b
    · obtain ⟨b, rfl⟩ := hex
      rw [← hW', ← hW]
      exact h.grow.keep b (by rw [hW]; exact ha)
    · exact hrest a fun b hab => hex ⟨b, hab⟩
  · intro a h₀ hne
    obtain ⟨b, rfl⟩ := hchanged a h₀ hne
    rw [← hW] at h₀
    rw [← hW'] at hne ⊢
    exact h.grow.fresh b h₀ hne
  · -- A pointer that changed leads to a sector that was free, an old one not.
    have hmix : ∀ b a, (∀ b, a ≠ φ b) → V' (φ b) ≠ 0 → V' (φ b) = V' a →
        φ b = a := by
      intro b a ha hne heq
      have hVa := hrest a ha
      have hused : s.used (V' (φ b)) := by
        rw [heq, hVa]
        exact hV.used a (by rw [← hVa, ← heq]; exact hne)
      have hb : V' (φ b) = V (φ b) := by
        rw [← hW', ← hW]
        exact h.grow.eq_of_used (by rw [hW']; exact hne) (by rw [hW']; exact hused)
      exact hV.inj _ _ (by rw [← hb]; exact hne) (by rw [← hb, heq, hVa])
    intro a a' hne heq
    by_cases hex : ∃ b, a = φ b
    · obtain ⟨b, rfl⟩ := hex
      by_cases hex' : ∃ b, a' = φ b
      · obtain ⟨b', rfl⟩ := hex'
        rw [← hW'] at hne
        rw [← hW', ← hW'] at heq
        exact congrArg φ (h.grow.inj b b' hne heq)
      · exact hmix b a' (fun b hab => hex' ⟨b, hab⟩) hne heq
    · by_cases hex' : ∃ b, a' = φ b
      · obtain ⟨b', rfl⟩ := hex'
        exact (hmix b' a (fun b hab => hex ⟨b, hab⟩) (heq ▸ hne) heq.symm).symm
      · rw [hrest a fun b hab => hex ⟨b, hab⟩] at hne heq
        rw [hrest a' fun b hab => hex' ⟨b, hab⟩] at heq
        exact hV.inj a a' hne heq
  · intro k hk hD hk₀ hno
    refine h.grow.frame k hk hD hk₀ fun b hb => ?_
    rw [hW]
    exact hno (φ b) ((hidx b).2 hb)
  · intro a hnot h₀ hne
    obtain ⟨b, rfl⟩ := hchanged a h₀ hne
    rw [← hW] at h₀
    rw [← hW'] at hne ⊢
    exact h.grow.zeroed b (fun hb => hnot ((hidx b).2 hb)) h₀ hne
  · intro a ha
    by_cases hex : ∃ b, a = φ b
    · obtain ⟨b, rfl⟩ := hex
      rw [← hW', ← hW]
      exact h.beyond b fun hb => ha (List.mem_map_of_mem hb)
    · exact hrest a fun b hab => hex ⟨b, hab⟩
  · intro hle
    obtain ⟨htrue, hfill⟩ := h.enough (by rw [← hlen]; exact hle)
    refine ⟨htrue, by rw [hlen]; exact hfill.free, hfill.allocFailures, hfill.zero,
      fun a ha => ?_, fun k hk => ?_⟩
    · obtain ⟨b, hb, rfl⟩ := List.mem_map.1 ha
      rw [← hW']
      exact hfill.ne b hb
    · rcases hfill.exact k hk with hk | ⟨b, h₀, hb⟩
      · exact .inl hk
      · exact .inr ⟨φ b, by rw [← hW]; exact h₀, by rw [← hW']; exact hb⟩
  · intro hlt
    obtain ⟨hfalse, hshort⟩ := h.short (by rw [← hlen]; exact hlt)
    refine ⟨hfalse, hshort.free, hshort.allocFailures, fun a ha => ?_⟩
    rw [hmiss, List.getElem?_map] at ha
    obtain ⟨b, hb, rfl⟩ := Option.map_eq_some_iff.1 ha
    rw [hidx]
    exact hshort.zero b hb

end SimpleShell.Fs
