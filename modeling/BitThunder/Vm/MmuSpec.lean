import BitThunder.Vm.Mmu
import BitThunder.Vm.SegSpec

/-!
# What the page table code touches

`bt_mmu_map` always returns and touches nothing but page tables and the cache they
come from, whatever its arguments are.

This is all that the segment functions have to know about the tables: a step of the loop takes a
table from the cache or does not, and writes to tables. Segments, maps, rings and user memory stay
as they are, so that a map shows what it showed before. What is entered for which page is a
different matter, and comes later.
-/

namespace BitThunder

variable {σ : Type} {K : Kernel σ}

/-- A call of `BT_CacheAlloc(&g_ptCache)`. -/
def Event.IsTable : Event → Prop
  | .ptAlloc _ | .ptRefused _ => True
  | _ => False

/-- Between the two states only page tables and their cache were touched. -/
structure TableFrame (K : Kernel σ) (s s' : Machine σ) : Prop where
  /-- the services were asked for page tables only -/
  env : Relation.ReflTransGen (fun e e' => e' = (K.cacheAlloc e).2) s.env s'.env
  fresh : s'.fresh = s.fresh
  ptr : s'.ptr = s.ptr
  links : s'.links = s.links
  seg : s'.seg = s.seg
  map : s'.map = s.map
  mapSeg : s'.mapSeg = s.mapSeg
  asid : s'.asid = s.asid
  ram : s'.ram = s.ram
  task : s'.task = s.task
  /-- and this is what has happened -/
  log : ∃ evs, s'.log = evs ++ s.log ∧ ∀ e ∈ evs, e.IsTable

namespace TableFrame

variable {s s₁ s₂ : Machine σ} {m : ℕ} {xs : List Entry}

theorem refl (K : Kernel σ) (s : Machine σ) : TableFrame K s s where
  env := .refl
  fresh := rfl
  ptr := rfl
  links := rfl
  seg := rfl
  map := rfl
  mapSeg := rfl
  asid := rfl
  ram := rfl
  task := rfl
  log := ⟨[], rfl, by simp⟩

/-- Steps that only enter tables may follow each other. -/
theorem trans (h : TableFrame K s s₁) (h' : TableFrame K s₁ s₂) : TableFrame K s s₂ where
  env := h.env.trans h'.env
  fresh := h'.fresh.trans h.fresh
  ptr := h'.ptr.trans h.ptr
  links := h'.links.trans h.links
  seg := h'.seg.trans h.seg
  map := h'.map.trans h.map
  mapSeg := h'.mapSeg.trans h.mapSeg
  asid := h'.asid.trans h.asid
  ram := h'.ram.trans h.ram
  task := h'.task.trans h.task
  log := by
    obtain ⟨evs, he, hq⟩ := h.log
    obtain ⟨evs', he', hq'⟩ := h'.log
    refine ⟨evs' ++ evs, by rw [he', he, List.append_assoc], fun e hmem => ?_⟩
    rcases List.mem_append.mp hmem with hm | hm
    · exact hq' e hm
    · exact hq e hm

/-- The segments of a map are not affected. -/
theorem shows (h : TableFrame K s s₁) (hs : Shows s m xs) : Shows s₁ m xs :=
  hs.congr h.links (fun _ _ => by rw [h.seg]) h.fresh.ge

end TableFrame

variable {s : Machine σ}

theorem tableFor_frame (pgd va k : ℕ) :
    Prog.Ensures (tableFor K pgd va k) s fun _ s' => TableFrame K s s' := by
  unfold tableFor cacheAlloc
  simp only [Prog.ensures_bind, Prog.ensures_read, Prog.ensures_ite, Prog.ensures_pure,
    Prog.ensures_service, Prog.ensures_update]
  have hcall : TableFrame K s ((s.setEnv (K.cacheAlloc s.env).2).emit
      (if (K.cacheAlloc s.env).1 = 0 then .ptRefused k else .ptAlloc (K.cacheAlloc s.env).1)) :=
    { TableFrame.refl K s with
      env := .single rfl
      log := ⟨[_], rfl, by split <;> simp [Event.IsTable]⟩ }
  refine ⟨fun _ => TableFrame.refl K s, fun _ => ⟨fun _ => hcall, fun _ => ?_⟩⟩
  exact hcall.trans { TableFrame.refl K _ with }

theorem mmuMapLoop_frame (pgd flag : ℕ) (n k pa va : ℕ) :
    Prog.Ensures (mmuMapLoop K pgd flag n k pa va) s fun _ s' => TableFrame K s s' := by
  induction n generalizing s k pa va with
  | zero =>
    rw [mmuMapLoop, Prog.ensures_pure]
    exact TableFrame.refl K s
  | succ n ih =>
    rw [mmuMapLoop, Prog.ensures_bind]
    refine (tableFor_frame pgd va k).mono fun r s₁ h₁ => ?_
    cases r with
    | none =>
      rw [Prog.ensures_pure]
      exact h₁
    | some pte =>
      simp only [Prog.ensures_bind, Prog.ensures_update]
      refine (ih _ _ _).mono fun _ s₂ h₂ => ?_
      have h₃ : TableFrame K s₁ (s₁.setPte pte va (pa ||| flag)) := { TableFrame.refl K s₁ with }
      exact (h₁.trans h₃).trans h₂

/-- `bt_mmu_map` returns, and only page tables have changed. -/
theorem btMmuMap_frame (h pa va size type : ℕ) :
    Prog.Ensures (btMmuMap K h pa va size type) s fun _ s' => TableFrame K s s' := by
  unfold btMmuMap
  cases typeToPteFlags type with
  | none => exact Prog.ensures_pure.mpr (TableFrame.refl K s)
  | some flag => exact mmuMapLoop_frame ..

end BitThunder
