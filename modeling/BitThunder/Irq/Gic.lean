import BitThunder.Mm.Defs

/-!
# Interrupt numbers

`os/src/interrupts/bt_interrupts.c` and `arch/arm/common/gic.c`. The system numbers its
interrupts globally; an interrupt controller has the numbers from its base on, and its own lines
count from zero. Each call translates the number for itself: to register, enable and disable, the
base is taken off, and for the affinity it is not. The dispatcher adds the base to the line and
then uses the sum for everything that it does.

* `gicSetaffinity_bit`: what setting the affinity does to the target registers;
* `Reach.inv`: the table of handlers, over all sequences of calls and interrupts;
* `numbers_agree_iff`: the numbers agree exactly for a controller with base zero, and the affinity
  of a line is set without harm to its neighbours exactly if the lower ones have no targets;
* `touches_only_iff`: which calls of the driver leave the other lines alone.

Nothing is assumed about the base of the controller. With base zero the two numberings are the same
and every translation is right, taken off or not; so the interesting direction is the other one,
where a base is found to disagree with one of the three uses that the dispatcher makes of the sum:
the entry of the table, the active interrupt, and the end of the interrupt. It takes one line and
one handler to show it.

The affinity of a line is a byte of a register of four. The word is written with a mask that keeps
the higher bytes and clears the lower ones, so that its effect on the other lines is a statement
about bits. It is exact: the bits that are lost are those that the lower lines had set.
-/

namespace BitThunder

/-- The driver and its registers, with `φ` for handlers and `π` for their parameters. -/
structure Gic (φ π : Type) : Type where
  ulBaseIRQ : ℕ
  /-- `g_oVectorTable`, and what follows it in memory -/
  gOVectorTable : ℕ → φ × π
  gOVectorStats : ℕ → ℕ
  gUlIRQ : ℤ
  /-- which lines are enabled: what `ISENABLER` and `ICENABLER` both read -/
  enabler : ℕ → BitVec 32
  itargetsr : ℕ → BitVec 32
  eoir : ℕ
  /-- `ulIRQ` of the dispatcher -/
  ulIRQ : ℕ
  /-- what the dispatcher called last -/
  called : φ × π

namespace Gic

section Calls

variable {φ π : Type} [DecidableEq φ] (stub : φ) (g : Gic φ π)

/-- `gic_register` -/
def gicRegister (ulIRQ : ℕ) (pfnHandler : φ) (pParam : π) : ℕ × Gic φ π :=
  if (g.gOVectorTable ulIRQ).1 ≠ stub then (errGeneric, g)
  else (0, { g with gOVectorTable := Function.update g.gOVectorTable ulIRQ (pfnHandler, pParam) })

/-- `gic_unregister` -/
def gicUnregister (null : π) (ulIRQ : ℕ) (pfnHandler : φ) : ℕ × Gic φ π :=
  if (g.gOVectorTable ulIRQ).1 ≠ pfnHandler then (errGeneric, g)
  else (0, { g with gOVectorTable := Function.update g.gOVectorTable ulIRQ (stub, null) })

/-- `BT_RegisterInterrupt` -/
def btRegisterInterrupt (ulIRQ : ℕ) (pfnHandler : φ) (pParam : π) : ℕ × Gic φ π :=
  g.gicRegister stub (wordSub ulIRQ g.ulBaseIRQ) pfnHandler pParam

/-- `gic_enable`. A one that is written to `ISENABLER` sets the bit. -/
def gicEnable (ulIRQ : ℕ) : Gic φ π :=
  let ulMask := 1#32 <<< (ulIRQ % 32)
  { g with enabler := Function.update g.enabler (ulIRQ / 32) (g.enabler (ulIRQ / 32) ||| ulMask) }

/-- `BT_EnableInterrupt` -/
def btEnableInterrupt (ulIRQ : ℕ) : Gic φ π := g.gicEnable (wordSub ulIRQ g.ulBaseIRQ)

/-- `gic_disable`. A one that is written to `ICENABLER` clears the bit. -/
def gicDisable (ulIRQ : ℕ) : Gic φ π :=
  let ulMask := 1#32 <<< (ulIRQ % 32)
  { g with
    enabler := Function.update g.enabler (ulIRQ / 32) (g.enabler (ulIRQ / 32) &&& ~~~ulMask) }

/-- `BT_DisableInterrupt` -/
def btDisableInterrupt (ulIRQ : ℕ) : Gic φ π := g.gicDisable (wordSub ulIRQ g.ulBaseIRQ)

/-- `gic_setaffinity` -/
def gicSetaffinity (ulIRQ ulCPU : ℕ) (bReceive : Bool) : ℕ × Gic φ π :=
  let ulBank := ulIRQ / 4
  let ulLine := ulIRQ % 4
  if ulCPU > 7 then (errGeneric, g)
  else
    let r := g.itargetsr ulBank &&& (~~~(1#32 <<< ulCPU)) <<< (8 * ulLine)
    let r := r ||| ((BitVec.ofBool bReceive).setWidth 32 <<< ulCPU) <<< (8 * ulLine)
    (0, { g with itargetsr := Function.update g.itargetsr ulBank r })

/-- `BT_SetInterruptAffinity` -/
def btSetInterruptAffinity (ulIRQ ulCPU : ℕ) (bReceive : Bool) : ℕ × Gic φ π :=
  g.gicSetaffinity ulIRQ ulCPU bReceive

/-- `BT_GetActiveInterrupt`, with `gic_getactiveinterrupt` -/
def btGetActiveInterrupt : ℤ :=
  if 0 ≤ g.gUlIRQ then toS32 (wordAdd g.ulBaseIRQ g.gUlIRQ.toNat) else -1

/-- `BT_ARCH_ARM_GIC_IRQHandler`, from the acknowledgement of a line to the call of the handler -/
def acknowledge (line : ℕ) : Gic φ π :=
  let ulIRQ := wordAdd line g.ulBaseIRQ
  { g with
    gOVectorStats := Function.update g.gOVectorStats line (wordAdd (g.gOVectorStats line) 1)
    gUlIRQ := toS32 ulIRQ
    ulIRQ := ulIRQ
    called := g.gOVectorTable ulIRQ }

/-- `BT_ARCH_ARM_GIC_IRQHandler`, from the return of the handler to the end of the interrupt -/
def complete : Gic φ π := { g with gUlIRQ := -1, eoir := g.ulIRQ }

/-- The line is enabled. -/
def Enabled (line : ℕ) : Bool := (g.enabler (line / 32)).getLsbD (line % 32)

/-- The line goes to the processor. -/
def Targets (line cpu : ℕ) : Bool := (g.itargetsr (line / 4)).getLsbD (8 * (line % 4) + cpu)

end Calls

section Runs

variable {φ π : Type} [DecidableEq φ]

/-- The state after a run, with the handlers registered for each global number and, while a
handler runs, its line and the handler that was registered for the number of this line when it
fired. The controller has `total` lines from the number `base` on. -/
inductive Reach (stub : φ) (null : π) (base total : ℕ) :
    Gic φ π → (ℕ → Option (φ × π)) → Option (ℕ × Option (φ × π)) → Prop where
  /-- `gic_probe` -/
  | probe {g : Gic φ π} (hbase : g.ulBaseIRQ = base) (hlast : base + total ≤ 2 ^ 32)
      (htable : ∀ i < total, g.gOVectorTable i = (stub, null)) (hactive : g.gUlIRQ = -1) :
      Reach stub null base total g (fun _ => none) none
  | register {g : Gic φ π} {reg : ℕ → Option (φ × π)} {serving : Option (ℕ × Option (φ × π))}
      (reach : Reach stub null base total g reg serving) {line : ℕ} (hline : line < total)
        (pfnHandler : φ) (pParam : π) :
      Reach stub null base total (g.btRegisterInterrupt stub (base + line) pfnHandler pParam).2
        (if (g.btRegisterInterrupt stub (base + line) pfnHandler pParam).1 = 0 then
          Function.update reg (base + line) (some (pfnHandler, pParam)) else reg) serving
  | enable {g : Gic φ π} {reg : ℕ → Option (φ × π)} {serving : Option (ℕ × Option (φ × π))}
      (reach : Reach stub null base total g reg serving) {line : ℕ} (hline : line < total) :
      Reach stub null base total (g.btEnableInterrupt (base + line)) reg serving
  | disable {g : Gic φ π} {reg : ℕ → Option (φ × π)} {serving : Option (ℕ × Option (φ × π))}
      (reach : Reach stub null base total g reg serving) {line : ℕ} (hline : line < total) :
      Reach stub null base total (g.btDisableInterrupt (base + line)) reg serving
  | affinity {g : Gic φ π} {reg : ℕ → Option (φ × π)} {serving : Option (ℕ × Option (φ × π))}
      (reach : Reach stub null base total g reg serving) {line : ℕ} (hline : line < total)
        (ulCPU : ℕ) (bReceive : Bool) :
      Reach stub null base total (g.btSetInterruptAffinity (base + line) ulCPU bReceive).2 reg
      serving
  | fire {g : Gic φ π} {reg : ℕ → Option (φ × π)} (reach : Reach stub null base total g reg none)
      {line : ℕ} (hline : line < total) (hgic : line < 1020) :
      Reach stub null base total (g.acknowledge line) reg (some (line, reg (base + line)))
  | finish {g : Gic φ π} {reg : ℕ → Option (φ × π)} {serving : ℕ × Option (φ × π)}
      (reach : Reach stub null base total g reg (some serving)) : Reach stub null base total
        g.complete reg none

/-- While the handler of `line` runs: it is the one that was registered, the active interrupt is
that of the line, and the end of the interrupt will be that of the line. -/
structure Serves (g : Gic φ π) (base line : ℕ) (registered : Option (φ × π)) : Prop where
  /-- the handler that is called is the registered one -/
  called : ∀ v ∈ registered, g.called = v
  /-- it is told its own number -/
  active : g.btGetActiveInterrupt = base + line
  /-- the line that is completed is its own -/
  eoir : g.complete.eoir = line

/-- Setting the affinity of `line` sets its bit for the processor and no other. -/
def AffinityRight (g : Gic φ π) (base line cpu : ℕ) (bReceive : Bool) : Prop :=
  ∀ l, ∀ c < 8, (g.btSetInterruptAffinity (base + line) cpu bReceive).2.Targets l c =
    if l = line ∧ c = cpu then bReceive else g.Targets l c

/-- The lower lines of the same register go to no processor. -/
def LowerClear (g : Gic φ π) (line : ℕ) : Prop :=
  ∀ k < line % 4, ∀ c < 8, g.Targets (4 * (line / 4) + k) c = false

/-! ## Registers

What a write does is said bit by bit, so that the neighbours in the same word are in view. -/

section Registers

omit [DecidableEq φ]

variable {g : Gic φ π} {line cpu : ℕ}

/-- The mask of a shift has one bit. -/
theorem getLsbD_mask {i j : ℕ} (hj : j < 32) : (1#32 <<< i).getLsbD j = decide (j = i) := by
  rcases Nat.lt_trichotomy j i with h | h | h
  · simp [BitVec.getLsbD_shiftLeft, h, h.ne]
  · subst h
    simp [hj]
  · have hne : j - i ≠ 0 := by omega
    simp [BitVec.getLsbD_shiftLeft, BitVec.getLsbD_one, h.ne', hne]

/-- Enabling a line sets its bit and no other. -/
theorem gicEnable_enabled (l : ℕ) : (g.gicEnable line).Enabled l = if l = line then true
    else g.Enabled l := by
  have hmod : l % 32 < 32 := Nat.mod_lt _ (by decide)
  simp only [gicEnable, Enabled]
  by_cases hbank : l / 32 = line / 32
  · rw [hbank, Function.update_self, BitVec.getLsbD_or, getLsbD_mask hmod]
    by_cases hl : l = line
    · subst hl
      simp
    · have hne : l % 32 ≠ line % 32 := by omega
      simp [hl, hne]
  · have hl : l ≠ line := by
      rintro rfl
      exact hbank rfl
    rw [Function.update_of_ne hbank, if_neg hl]

/-- Disabling a line clears its bit and no other. -/
theorem gicDisable_enabled (l : ℕ) : (g.gicDisable line).Enabled l = if l = line then false
    else g.Enabled l := by
  have hmod : l % 32 < 32 := Nat.mod_lt _ (by decide)
  simp only [gicDisable, Enabled]
  by_cases hbank : l / 32 = line / 32
  · rw [hbank, Function.update_self, BitVec.getLsbD_and, BitVec.getLsbD_not, getLsbD_mask hmod]
    by_cases hl : l = line
    · subst hl
      simp
    · have hne : l % 32 ≠ line % 32 := by omega
      simp [hl, hne, hmod]
  · have hl : l ≠ line := by
      rintro rfl
      exact hbank rfl
    rw [Function.update_of_ne hbank, if_neg hl]

/-- The bits of a target register after its byte `i` was written: those of the lower bytes are
cleared. -/
theorem targetWord_bit (w : BitVec 32) {i k c : ℕ} (bReceive : Bool) (hcpu : cpu < 8) (hk : k < 4)
    (hc : c < 8) :
    (w &&& (~~~(1#32 <<< cpu)) <<< (8 * i) |||
        ((BitVec.ofBool bReceive).setWidth 32 <<< cpu) <<< (8 * i)).getLsbD (8 * k + c) =
      if k = i ∧ c = cpu then bReceive else decide (i ≤ k) && w.getLsbD (8 * k + c) := by
  have hbit : 8 * k + c < 32 := by omega
  simp only [BitVec.getLsbD_or, BitVec.getLsbD_and, BitVec.getLsbD_shiftLeft, BitVec.getLsbD_not,
    BitVec.getLsbD_setWidth, BitVec.getLsbD_ofBool, BitVec.getLsbD_one]
  rcases Nat.lt_trichotomy k i with h | h | h
  · have hlow : 8 * k + c < 8 * i := by omega
    simp [hlow, h.ne, not_le.mpr h]
  · subst h
    have hsub : 8 * k + c - 8 * k = c := by omega
    have hc32 : c < 32 := by omega
    simp only [hsub]
    rcases Nat.lt_trichotomy c cpu with h | h | h
    · simp [h, h.ne, hbit, hc32]
    · subst h
      simp [hbit, hc32]
    · have hne : c - cpu ≠ 0 := by omega
      simp [hne, h.ne', hbit, hc32]
  · have hhigh : ¬8 * k + c < 8 * i := by omega
    have hne : 8 * k + c - 8 * i - cpu ≠ 0 := by omega
    have hsub : 8 * k + c - 8 * i < 32 := by omega
    simp [hhigh, hne, h.ne', hbit, h.le, hsub]

/-- Setting the affinity of a line clears the targets of the lower lines of its register. -/
theorem gicSetaffinity_bit {l c : ℕ} (bReceive : Bool) (hcpu : cpu ≤ 7) (hc : c < 8) :
    (g.gicSetaffinity line cpu bReceive).2.Targets l c =
      if l = line ∧ c = cpu then bReceive
      else if l / 4 = line / 4 ∧ l < line then false else g.Targets l c := by
  have hmod : l % 4 < 4 := Nat.mod_lt _ (by decide)
  rw [gicSetaffinity, if_neg (by omega)]
  simp only [Targets]
  by_cases hbank : l / 4 = line / 4
  · rw [hbank, Function.update_self, targetWord_bit _ _ (by omega) hmod hc]
    have hline : l % 4 = line % 4 ↔ l = line := by omega
    have hle : line % 4 ≤ l % 4 ↔ ¬l < line := by omega
    simp only [hline, hle, true_and]
    split_ifs with hthis hlow
    · rfl
    · simp [hlow]
    · simp [hlow]
  · have hl : l ≠ line := by
      rintro rfl
      exact hbank rfl
    rw [Function.update_of_ne hbank, if_neg (fun h => hl h.1), if_neg (fun h => hbank h.1)]

/-- With base zero, the affinity is set right exactly if there is nothing to be cleared. -/
theorem affinityRight_iff (bReceive : Bool) (hcpu : cpu ≤ 7) :
    g.AffinityRight 0 line cpu bReceive ↔ g.LowerClear line := by
  constructor
  · intro hright k hk c hc
    have hbit := hright (4 * (line / 4) + k) c hc
    have hlt : 4 * (line / 4) + k < line := by omega
    rw [btSetInterruptAffinity, Nat.zero_add, gicSetaffinity_bit bReceive hcpu hc,
      if_neg (fun h => hlt.ne h.1), if_pos ⟨by omega, hlt⟩, if_neg (fun h => hlt.ne h.1)] at hbit
    exact hbit.symm
  · intro hclear l c hc
    rw [btSetInterruptAffinity, Nat.zero_add, gicSetaffinity_bit bReceive hcpu hc]
    split_ifs with hthis hlow
    · rfl
    · obtain ⟨hbank, hlt⟩ := hlow
      have hzero := hclear (l - 4 * (line / 4)) (by omega) c hc
      rw [show 4 * (line / 4) + (l - 4 * (line / 4)) = l by omega] at hzero
      exact hzero.symm
    · rfl

end Registers

/-! ## Runs

A run registers handlers and serves interrupts. What was registered is kept beside the state by
global number, as the callers know it. -/

/-- What holds between two steps. -/
structure Inv (base total : ℕ) (g : Gic φ π) (reg : ℕ → Option (φ × π))
    (serving : Option (ℕ × Option (φ × π))) :
    Prop where
  ulBaseIRQ : g.ulBaseIRQ = base
  /-- the numbers of the controller are words -/
  last : base + total ≤ 2 ^ 32
  /-- a handler is found under its line -/
  registered : ∀ line < total, ∀ v, reg (base + line) = some v → g.gOVectorTable line = v
  /-- while a handler runs the number that was noted is that of its line, with the base added -/
  handler : ∀ line want, serving = some (line, want) →
    line < total ∧ line < 1020 ∧ g.ulIRQ = wordAdd line base ∧
    g.gUlIRQ = toS32 (wordAdd line base) ∧
      (base = 0 → ∀ v ∈ want, g.called = v)

variable {stub : φ} {null : π} {base total line : ℕ} {g : Gic φ π} {reg : ℕ → Option (φ × π)}
  {serving : Option (ℕ × Option (φ × π))}

omit [DecidableEq φ] in
/-- The line of an interrupt is found by subtracting the controller's base. -/
theorem Inv.wordSub (inv : Inv base total g reg serving) (hline : line < total) :
    wordSub (base + line) g.ulBaseIRQ = line := by
  have hlast := inv.last
  rw [inv.ulBaseIRQ, wordSub_of_le (by omega) (by omega)]
  omega

/-- To register a handler for a line keeps the invariant. -/
theorem Inv.register (inv : Inv base total g reg serving) (hline : line < total) (pfnHandler : φ)
    (pParam : π) :
    Inv base total (g.btRegisterInterrupt stub (base + line) pfnHandler pParam).2
      (if (g.btRegisterInterrupt stub (base + line) pfnHandler pParam).1 = 0 then
        Function.update reg (base + line) (some (pfnHandler, pParam)) else reg) serving := by
  rw [btRegisterInterrupt, inv.wordSub hline, gicRegister]
  by_cases hstub : (g.gOVectorTable line).1 ≠ stub
  · rw [if_pos hstub, if_neg errGeneric_ne_zero]
    exact inv
  · rw [if_neg hstub, if_pos rfl]
    refine ⟨inv.ulBaseIRQ, inv.last, ?_, inv.handler⟩
    intro l hl v hv
    by_cases heq : l = line
    · subst heq
      rw [Function.update_self] at hv
      exact (Function.update_self ..).trans (Option.some.inj hv)
    · rw [Function.update_of_ne (by omega)] at hv
      exact (Function.update_of_ne heq ..).trans (inv.registered l hl v hv)

theorem Reach.inv (reach : Reach stub null base total g reg serving) :
    Inv base total g reg serving := by
  induction reach with
  | probe hbase hlast _ _ =>
    refine ⟨hbase, hlast, ?_, ?_⟩
    · rintro _ _ _ ⟨⟩
    · rintro _ _ ⟨⟩
  | register _ hline pfnHandler pParam ih => exact ih.register hline pfnHandler pParam
  | enable | disable =>
    rename_i ih
    exact ⟨ih.ulBaseIRQ, ih.last, ih.registered, ih.handler⟩
  | affinity _ _ ulCPU bReceive ih =>
    rw [btSetInterruptAffinity, gicSetaffinity]
    split_ifs
    · exact ih
    · exact ⟨ih.ulBaseIRQ, ih.last, ih.registered, ih.handler⟩
  | @fire g reg _ line hline hgic ih =>
    refine ⟨ih.ulBaseIRQ, ih.last, ih.registered, ?_⟩
    rintro _ _ ⟨⟩
    refine ⟨hline, hgic, ?_, ?_, ?_⟩
    · rw [← ih.ulBaseIRQ]
      rfl
    · rw [← ih.ulBaseIRQ]
      rfl
    · rintro rfl v hv
      have hword : wordAdd line g.ulBaseIRQ = line := by
        rw [ih.ulBaseIRQ]
        exact wordAdd_of_lt (by omega)
      change g.gOVectorTable (wordAdd line g.ulBaseIRQ) = v
      rw [hword]
      exact ih.registered line hline v hv
  | finish _ ih =>
    refine ⟨ih.ulBaseIRQ, ih.last, ih.registered, ?_⟩
    rintro _ _ ⟨⟩

omit [DecidableEq φ] in
/-- A line is served under its own number exactly if the controller has base zero. -/
theorem Inv.serves_iff {want : Option (φ × π)} (inv : Inv base total g reg (some (line, want))) :
    g.Serves base line want ↔ base = 0 := by
  obtain ⟨hline, hgic, hirq, hactive, hcalled⟩ := inv.handler line want rfl
  have hlast := inv.last
  constructor
  · intro serves
    have heoir : g.ulIRQ = line := serves.eoir
    rw [hirq, wordAdd] at heoir
    omega
  · rintro rfl
    have hword : wordAdd line 0 = line := wordAdd_of_lt (by omega)
    rw [hword] at hirq hactive
    have hs32 : toS32 line = line := if_pos (by omega)
    refine ⟨hcalled rfl, ?_, hirq⟩
    rw [btGetActiveInterrupt, inv.ulBaseIRQ, hactive, hs32,
      if_pos (by omega), Int.toNat_natCast, wordAdd,
      Nat.zero_add, Nat.mod_eq_of_lt (by omega), hs32]
    simp

/-- **When the numbers agree.** In every state that can be reached, with any handler running: it
is the right one, and it is accounted for under its own number and line, exactly if the
controller has base zero. Enabling and disabling changes the line of the number, for every base.
With base zero, setting the affinity changes the target of the line and nothing else exactly if
the lower lines of the same register have no targets. -/
theorem numbers_agree_iff (reach : Reach stub null base total g reg serving) :
    (∀ line want, serving = some (line, want) → (g.Serves base line want ↔ base = 0)) ∧
      (∀ line < total, ∀ l, (g.btEnableInterrupt (base + line)).Enabled l =
      (if l = line then true else g.Enabled l) ∧
        (g.btDisableInterrupt (base + line)).Enabled l = if l = line then false else g.Enabled l) ∧
      ∀ line < total, ∀ cpu ≤ 7, ∀ bReceive, base = 0 →
        (g.AffinityRight base line cpu bReceive ↔ g.LowerClear line) := by
  have inv := reach.inv
  refine ⟨?_, ?_, ?_⟩
  · rintro line want rfl
    exact inv.serves_iff
  · intro line hline l
    rw [btEnableInterrupt, btDisableInterrupt, inv.wordSub hline]
    exact ⟨gicEnable_enabled l, gicDisable_enabled l⟩
  · rintro line _ cpu hcpu bReceive rfl
    exact affinityRight_iff bReceive hcpu

/-- A controller after `gic_probe`, with the handler `0` as the stub. All lines go to the first
processor. -/
def probed (base : ℕ) : Gic ℕ Unit where
  ulBaseIRQ := base
  gOVectorTable := fun _ => (0, ())
  gOVectorStats := fun _ => 0
  gUlIRQ := -1
  enabler := fun _ => 0
  itargetsr := fun _ => 0x01010101
  eoir := 0
  ulIRQ := 0
  called := (0, ())

/-- The handler `7` is registered for the second line, which fires. -/
def secondLine (base : ℕ) : Gic ℕ Unit :=
  ((probed base).btRegisterInterrupt 0 (base + 1) 7 ()).2.acknowledge 1

/-- A handler for the second line, while its interrupt is served. -/
theorem secondLine_reach {base : ℕ} (hbase : base + 64 ≤ 2 ^ 32) :
    ∃ reg, Reach 0 () base 64 (secondLine base) reg (some (1, some (7, ()))) := by
  have reach : Reach 0 () base 64 (probed base) (fun _ => none) none :=
    .probe rfl hbase (fun _ _ => rfl) rfl
  have hregister := reach.register (show 1 < 64 by decide) 7 ()
  have hok : ((probed base).btRegisterInterrupt 0 (base + 1) 7 ()).1 = 0 := rfl
  rw [if_pos hok] at hregister
  have hfire := hregister.fire (show 1 < 64 by decide) (by decide)
  rw [Function.update_self] at hfire
  exact ⟨_, hfire⟩

theorem numbers_agree_iff_zero :
    (secondLine 0).Serves 0 1 (some (7, ())) ∧
    ((secondLine 0).AffinityRight 0 4 1 true ↔ (secondLine 0).LowerClear 4) := by
  obtain ⟨reg, reach⟩ := secondLine_reach (show 0 + 64 ≤ 2 ^ 32 by decide)
  obtain ⟨hserves, -, haffinity⟩ := numbers_agree_iff reach
  exact ⟨(hserves 1 _ rfl).mpr rfl, haffinity 4 (by decide) 1 (by decide) true rfl⟩

/-- With base 32, the second line of the controller calls the stub and ends the interrupt of
another line; and with base zero, setting the affinity of line 33 takes line 32 from its
processor. -/
theorem numbers_disagree :
    (∃ reg, Reach 0 () 32 64 (secondLine 32) reg (some (1, some (7, ()))) ∧
    (secondLine 32).called = (0, ()) ∧
      (secondLine 32).complete.eoir = 33 ∧ ¬(secondLine 32).Serves 32 1 (some (7, ()))) ∧
      ¬(secondLine 0).AffinityRight 0 33 1 true := by
  obtain ⟨reg, reach⟩ := secondLine_reach (show 32 + 64 ≤ 2 ^ 32 by decide)
  refine ⟨⟨reg, reach, by decide, by decide, ?_⟩, ?_⟩
  · intro serves
    exact absurd serves.eoir (by decide)
  · intro hright
    exact absurd (hright 32 0 (by decide)) (by decide)

end Runs

/-! ## One line

A line is taken out of the registers with all that belongs to it, and each call is asked what it
does to this line and to the others. -/

section Lines

variable {φ π : Type} [DecidableEq φ]

/-- What there is of a line: its handler, whether it is enabled, and the processors it goes to. -/
@[ext] structure Line (φ π : Type) : Type where
  handler : φ × π
  enabled : Bool
  targets : ℕ → Bool

/-- The line in the registers and in the table of handlers. -/
def line (g : Gic φ π) (l : ℕ) : Line φ π where
  handler := g.gOVectorTable l
  enabled := g.Enabled l
  targets cpu := decide (cpu < 8) && g.Targets l cpu

/-- The calls of the driver that are about one line. -/
inductive LineCall (φ π : Type) : Type where
  | register (pfnHandler : φ) (pParam : π)
  | unregister (pfnHandler : φ)
  | enable
  | disable
  | affinity (ulCPU : ℕ) (bReceive : Bool)

/-- The call. -/
def LineCall.run (stub : φ) (null : π) (g : Gic φ π) (ulIRQ : ℕ) : LineCall φ π → Gic φ π
  | .register pfnHandler pParam => (g.gicRegister stub ulIRQ pfnHandler pParam).2
  | .unregister pfnHandler => (g.gicUnregister stub null ulIRQ pfnHandler).2
  | .enable => g.gicEnable ulIRQ
  | .disable => g.gicDisable ulIRQ
  | .affinity ulCPU bReceive => (g.gicSetaffinity ulIRQ ulCPU bReceive).2

/-- What is asked for: a handler where there was none, the stub in place of this handler, or one
bit. A processor that does not exist is refused. -/
def LineCall.asked (stub : φ) (null : π) (x : Line φ π) : LineCall φ π → Line φ π
  | .register pfnHandler pParam =>
    if x.handler.1 ≠ stub then x else { x with handler := (pfnHandler, pParam) }
  | .unregister pfnHandler =>
    if x.handler.1 ≠ pfnHandler then x else { x with handler := (stub, null) }
  | .enable => { x with enabled := true }
  | .disable => { x with enabled := false }
  | .affinity ulCPU bReceive =>
    if ulCPU > 7 then x else { x with targets := Function.update x.targets ulCPU bReceive }

/-- The call changes its own line as asked, and no other. -/
def TouchesOnly (stub : φ) (null : π) (g : Gic φ π) (c : LineCall φ π) (ulIRQ : ℕ) : Prop :=
  ∀ l, (c.run stub null g ulIRQ).line l =
    if l = ulIRQ then c.asked stub null (g.line l) else g.line l

variable {stub : φ} {null : π} {g : Gic φ π} {ulIRQ : ℕ}

omit [DecidableEq φ] in
/-- An entry of the table of handlers is written. -/
theorem line_update (v : φ × π) (l : ℕ) :
    ({ g with gOVectorTable := Function.update g.gOVectorTable ulIRQ v } : Gic φ π).line l =
      if l = ulIRQ then { g.line l with handler := v } else g.line l := by
  split_ifs with hl
  · subst hl
    simp [line, Enabled, Targets]
  · simp [line, Enabled, Targets, Function.update_of_ne hl]

theorem register_touches (pfnHandler : φ) (pParam : π) :
    g.TouchesOnly stub null (.register pfnHandler pParam) ulIRQ := by
  intro l
  simp only [LineCall.run, LineCall.asked, gicRegister]
  by_cases hstub : (g.gOVectorTable ulIRQ).1 ≠ stub
  · rw [if_pos hstub]
    split_ifs with hl
    · rfl
    · subst hl
      exact absurd hstub (by assumption)
    · rfl
  · rw [if_neg hstub, line_update]
    split_ifs with hl hbusy
    · subst hl
      exact absurd hbusy hstub
    · rfl
    · rfl

theorem unregister_touches (pfnHandler : φ) :
    g.TouchesOnly stub null (.unregister pfnHandler) ulIRQ := by
  intro l
  simp only [LineCall.run, LineCall.asked, gicUnregister]
  by_cases hother : (g.gOVectorTable ulIRQ).1 ≠ pfnHandler
  · rw [if_pos hother]
    split_ifs with hl
    · rfl
    · subst hl
      exact absurd hother (by assumption)
    · rfl
  · rw [if_neg hother, line_update]
    split_ifs with hl hbusy
    · subst hl
      exact absurd hbusy hother
    · rfl
    · rfl

theorem enable_touches : g.TouchesOnly stub null .enable ulIRQ := by
  intro l
  have henabled : (g.gicEnable ulIRQ).Enabled l = if l = ulIRQ then true else g.Enabled l :=
    gicEnable_enabled l
  simp only [LineCall.run, LineCall.asked, line, henabled]
  split_ifs <;> rfl

theorem disable_touches : g.TouchesOnly stub null .disable ulIRQ := by
  intro l
  have henabled : (g.gicDisable ulIRQ).Enabled l = if l = ulIRQ then false else g.Enabled l :=
    gicDisable_enabled l
  simp only [LineCall.run, LineCall.asked, line, henabled]
  split_ifs <;> rfl

/-- Setting the affinity touches the targets only. -/
theorem affinity_touches_iff {ulCPU : ℕ} (bReceive : Bool) (hcpu : ulCPU ≤ 7) :
    g.TouchesOnly stub null (.affinity ulCPU bReceive) ulIRQ ↔
      g.AffinityRight 0 ulIRQ ulCPU bReceive := by
  have hrun : (g.gicSetaffinity ulIRQ ulCPU bReceive).2.gOVectorTable = g.gOVectorTable ∧
      (g.gicSetaffinity ulIRQ ulCPU bReceive).2.enabler = g.enabler := by
    rw [gicSetaffinity, if_neg (by omega)]
    exact ⟨rfl, rfl⟩
  have hbit : ∀ l c, (g.btSetInterruptAffinity (0 + ulIRQ) ulCPU bReceive).2.Targets l c =
      (g.gicSetaffinity ulIRQ ulCPU bReceive).2.Targets l c := by
    intro l c
    rw [btSetInterruptAffinity, Nat.zero_add]
  constructor
  · intro h l c hc
    have htargets := congrFun (congrArg Line.targets (h l)) c
    rw [hbit]
    simp only [LineCall.run, LineCall.asked, line, hc, decide_true, Bool.true_and] at htargets
    rw [htargets]
    by_cases hl : l = ulIRQ
    · by_cases hcc : c = ulCPU
      · simp [hl, hcc, not_lt.mpr hcpu]
      · simp [hl, hcc, hc, not_lt.mpr hcpu]
    · simp [hl, hc]
  · intro h l
    have henabled : (g.gicSetaffinity ulIRQ ulCPU bReceive).2.Enabled l = g.Enabled l := by
      rw [Enabled, hrun.2, Enabled]
    have htable := congrFun hrun.1 l
    ext c
    · simp only [LineCall.run, line, htable, LineCall.asked, if_neg (not_lt.mpr hcpu)]
      split_ifs <;> rfl
    · simp only [LineCall.run, line, htable, LineCall.asked, if_neg (not_lt.mpr hcpu)]
      split_ifs <;> rfl
    · simp only [LineCall.run, line, henabled, LineCall.asked, if_neg (not_lt.mpr hcpu)]
      split_ifs <;> rfl
    · simp only [LineCall.run, line, LineCall.asked, if_neg (not_lt.mpr hcpu)]
      by_cases hc : c < 8
      · have hright := h l c hc
        rw [hbit] at hright
        rw [hright]
        by_cases hl : l = ulIRQ
        · by_cases hcc : c = ulCPU
          · have hlt : ulCPU < 8 := by omega
            simp [hl, hcc, hlt]
          · simp [hl, hcc]
        · simp [hl]
      · have hcc : c ≠ ulCPU := by omega
        by_cases hl : l = ulIRQ
        · simp [hl, hc, hcc]
        · simp [hl, hc]

/-- **Which calls leave the other lines alone.** Every call but one changes its own line as asked
and no other; and setting the affinity does exactly if the processor is refused, or if the lower
lines of the same register go to no processor. -/
theorem touches_only_iff (c : LineCall φ π) : g.TouchesOnly stub null c ulIRQ ↔
    ∀ ulCPU bReceive, c = .affinity ulCPU bReceive → ulCPU ≤ 7 → g.LowerClear ulIRQ := by
  cases c with
  | register pfnHandler pParam => exact iff_of_true (register_touches _ _) nofun
  | unregister pfnHandler => exact iff_of_true (unregister_touches _) nofun
  | enable => exact iff_of_true enable_touches nofun
  | disable => exact iff_of_true disable_touches nofun
  | affinity ulCPU bReceive =>
    by_cases hcpu : ulCPU ≤ 7
    · rw [affinity_touches_iff bReceive hcpu, affinityRight_iff bReceive hcpu]
      constructor
      · intro h _ _ _ _
        exact h
      · intro h
        exact h _ _ rfl hcpu
    · refine iff_of_true ?_ ?_
      · intro l
        have hbad : ulCPU > 7 := by omega
        simp only [LineCall.run, LineCall.asked, gicSetaffinity, if_pos hbad]
        split_ifs <;> rfl
      · rintro _ _ ⟨⟩ h
        exact absurd h hcpu

/-- All lines go to the first processor; when line 33 is to go to the second, line 32 is taken
from the first. -/
theorem affinity_touches_neighbour :
    ¬ (probed 0).TouchesOnly 0 () (.affinity 1 true) 33 := by
  intro h
  have hline := congrFun (congrArg Line.targets (h 32)) 0
  exact absurd hline (by decide)

end Lines

end Gic

end BitThunder
