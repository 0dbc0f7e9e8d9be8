import Mathlib.Data.Nat.Bitwise
import Mathlib.Logic.Function.Basic
import Mathlib.Tactic

/-!
# The link state machine

`phy_sm` and its poller of `os/src/net/bt_phy.c`, with `mac_adjust_link` of the Zynq's MAC and
`bt_netif_adjust_link` of `os/src/net/bt_net.c`. Every PHY is polled once a second: its state
machine is clocked until it asks for no more. The MAC and the interface hear of the link in one
state only, `BT_PHY_CHANGELINK`. A PHY is connected to a MAC, and its link restarted, from outside.

* `clock_ends`: each poll ends;
* `LinkState.Agrees`: interface, MAC and PHY agree about the link;
* `link_agrees`: they do after each poll, if each change gets to `BT_PHY_CHANGELINK`;
* `restart_leaves_netif_up`: after a restart one does not.

A poll clocks the state machine until it does not ask for more. Ranking the states shows that it
stops (`clock_ends`), and what a whole poll does is then a case distinction over the state it starts
in and what the registers say, with at most four rounds. Most of them leave the MAC alone. It is
told about the link in one state, right after the status was read, so that it is told what is true
then.

The invariant says for each state of a connected PHY what its interface and MAC are like. A link
that goes away is noticed in the state for a running link and leads to the one that tells; but a
restart leads away from that state without telling, and a link that stays up with another speed
never leaves it.
-/

namespace BitThunder

/-- `enum bt_phy_state` -/
inductive BtPhyState : Type where
  | down | starting | ready | pending | up | an | running | nolink | forcing | renegotiate
  | changelink | halted | resuming
  deriving DecidableEq

/-- What is in the registers of a PHY -/
structure PhyRegs : Type where
  /-- `BT_PHY_MII_BMCR` -/
  bmcr : ℕ
  /-- `BT_PHY_MII_BMSR` -/
  bmsr : ℕ
  /-- `BT_PHY_MII_ADVERTISE` -/
  advertise : ℕ
  /-- `BT_PHY_MII_LPA` -/
  lpa : ℕ
  /-- `BT_PHY_MII_CTRL1000` -/
  ctrl1000 : ℕ
  /-- `BT_PHY_MII_STAT1000` -/
  stat1000 : ℕ
  /-- `BT_PHY_MII_ESTATUS` -/
  estatus : ℕ

/-- `struct bt_phy_device` -/
structure PhyDevice (μ : Type) : Type where
  eState : BtPhyState
  speed : ℕ
  /-- full duplex -/
  duplex : Bool
  pause : Bool
  asymPause : Bool
  link : Bool
  supported : ℕ
  autoneg : Bool
  activeMac : Option μ

/-- The driver's handle of a MAC, and what it has been programmed to -/
structure MacLink : Type where
  speed : ℕ
  duplex : Bool
  link : Bool
  /-- `NET_CFG_FDEN` -/
  fden : Bool
  /-- `NET_CFG_SPEED` -/
  speed100 : Bool
  /-- `NET_CFG_GIGEEN` -/
  gigeen : Bool
  /-- the argument of `mac_set_freq` -/
  freq : ℕ

/-! ## The PHY

The registers are as they happen to be at each poll, and the driver of the PHY reads them into the
device. -/

namespace PhyDevice

variable {μ : Type}

/-- A bit of a register -/
def bit (reg mask : ℕ) : Bool := reg &&& mask ≠ 0

/-- `bt_phy_generic_update_link`: the second read of `BT_PHY_MII_BMSR` counts. -/
def updateLink (phy : PhyDevice μ) (regs : PhyRegs) : PhyDevice μ :=
  { phy with link := bit regs.bmsr 0x0004 }

/-- The part of `bt_phy_generic_read_status` for a link that was negotiated -/
def readNegotiated (phy : PhyDevice μ) (regs : PhyRegs) : PhyDevice μ :=
  let lpagb := if bit phy.supported 0x30 then regs.stat1000 &&& (regs.ctrl1000 <<< 2) % 2 ^ 16
    else 0
  let lpa := regs.lpa &&& regs.advertise
  let (speed, duplex) :=
    if bit lpagb 0x0C00 then (1000, bit lpagb 0x0800)
    else if bit lpa 0x0180 then (100, bit lpa 0x0100)
    else (10, bit lpa 0x0040)
  { phy with
    speed := speed
    duplex := duplex
    pause := duplex && bit lpa 0x0400
    asymPause := duplex && bit lpa 0x0800 }

/-- The part of it for a link that was set -/
def readForced (phy : PhyDevice μ) (regs : PhyRegs) : PhyDevice μ :=
  { phy with
    duplex := bit regs.bmcr 0x0100
    speed := if bit regs.bmcr 0x0040 then 1000 else if bit regs.bmcr 0x2000 then 100 else 10 }

/-- `bt_phy_generic_read_status`, which is `phy_read_status` of every driver here -/
def readStatus (phy : PhyDevice μ) (regs : PhyRegs) : PhyDevice μ :=
  let phy := phy.updateLink regs
  if phy.autoneg then phy.readNegotiated regs else phy.readForced regs

/-- `bt_phy_generic_init`, as far as it changes the device: `phy_init` of the drivers writes
registers before it. -/
def phyInit (phy : PhyDevice μ) (regs : PhyRegs) : PhyDevice μ :=
  let flag (c : Bool) (f : ℕ) : ℕ := if c then f else 0
  let extended := bit regs.bmsr 0x0100
  { phy with
    supported := 0xF80 ||| flag (bit regs.bmsr 0x0008) 0x40 ||| flag (bit regs.bmsr 0x4000) 0x08 |||
      flag (bit regs.bmsr 0x2000) 0x04 ||| flag (bit regs.bmsr 0x1000) 0x02 |||
        flag (bit regs.bmsr 0x0800) 0x01 |||
      flag (extended && bit regs.estatus 0x2000) 0x20 |||
        flag (extended && bit regs.estatus 0x1000) 0x10 }

end PhyDevice

/-! ## The MAC

The MAC is programmed with what the device says at that moment, in the bits and the clock that go
with it. -/

namespace MacLink

/-- The registers are set for a speed. -/
def program (mac : MacLink) (speed : ℕ) (duplex : Bool) : MacLink :=
  { mac with
    speed := speed
    duplex := duplex
    fden := duplex
    gigeen := decide (speed = 1000)
    speed100 := decide (speed = 100)
    freq := if speed = 1000 then 125000000 else if speed = 100 then 25000000 else 2500000 }

/-- `mac_adjust_link` -/
def macAdjustLink {μ : Type} (mac : MacLink) (phy : PhyDevice μ) : MacLink :=
  if phy.link ∧ (mac.speed ≠ phy.speed ∨ mac.duplex ≠ phy.duplex) then
    if phy.speed = 1000 ∨ phy.speed = 100 ∨ phy.speed = 10 then
      { mac.program phy.speed phy.duplex with link := phy.link }
    -- "Unknown PHY speed"
    else mac
  else { mac with link := phy.link }

end MacLink

/-! ## All of them

Any number of PHYs and MACs, each PHY with one MAC at most. A poll is of one of them. -/

/-- PHYs, MACs and their interfaces -/
structure LinkState (ι μ : Type) : Type where
  phy : ι → PhyDevice μ
  mac : μ → MacLink
  /-- the interface of the MAC is up -/
  netifUp : μ → Bool
  /-- `netif->phy` -/
  netifPhy : μ → Option ι

/-- What can happen next. -/
inductive LinkAction (ι : Type) (μ : Type) : Type where
  /-- a PHY is polled; the state machine finds these contents of its registers, clock by clock -/
  | poll (i : ι) (regs : ℕ → PhyRegs)
  /-- `BT_ConnectPHY` for a PHY and the MAC of its bus -/
  | btConnectPHY (i : ι)
  /-- `BT_NetifRestartLink` for the interface of a MAC -/
  | btNetifRestartLink (m : μ)

namespace LinkState

variable {ι μ : Type} [DecidableEq ι] [DecidableEq μ]

/-- After `BT_RegisterMiiBus` has found the PHYs -/
def init (supported : ι → ℕ) : LinkState ι μ where
  phy i := ⟨.down, 0, false, false, false, false, supported i, true, none⟩
  mac _ := ⟨0, false, false, false, false, false, 0⟩
  netifUp _ := false
  netifPhy _ := none

def setPhy (s : LinkState ι μ) (i : ι) (phy : PhyDevice μ) : LinkState ι μ :=
  { s with phy := Function.update s.phy i phy }

/-- `bt_netif_adjust_link` -/
def btNetifAdjustLink (s : LinkState ι μ) (m : μ) : LinkState ι μ :=
  match s.netifPhy m with
  | none => s
  | some j => { s with netifUp := Function.update s.netifUp m (s.phy j).link }

/-- The state `BT_PHY_CHANGELINK` of a PHY with a MAC -/
def changelink (s : LinkState ι μ) (i : ι) (m : μ) : LinkState ι μ :=
  let phy := s.phy i
  let s := { s with mac := Function.update s.mac m ((s.mac m).macAdjustLink phy) }
  let s := s.setPhy i { phy with eState := if phy.link then .up else .down }
  s.btNetifAdjustLink m

/-- `phy_sm`: whether it is to be clocked again -/
def phySm (s : LinkState ι μ) (i : ι) (regs : PhyRegs) : Bool × LinkState ι μ :=
  let phy := s.phy i
  match phy.eState with
  | .down =>
    let phy := phy.readStatus regs
    if phy.link then (true, s.setPhy i { phy with eState := .changelink })
      else (false, s.setPhy i phy)
  | .starting => (true, s.setPhy i { phy.phyInit regs with eState := .renegotiate })
  | .up =>
    let phy := phy.readStatus regs
    if phy.link then (false, s.setPhy i phy)
      else (true, s.setPhy i { phy with eState := .changelink })
  | .renegotiate => (true, s.setPhy i { phy.phyInit regs with eState := .down })
  | .changelink => match phy.activeMac with
    | none => (false, s)
    | some m => (false, s.changelink i m)
  | _ => (false, s)

/-- The loop of `phy_task` for a PHY, at most `n` times -/
def clock (i : ι) (regs : ℕ → PhyRegs) : ℕ → ℕ → LinkState ι μ → Option (LinkState ι μ)
  | 0, _, _ => none
  | n + 1, k, s =>
    if (s.phySm i (regs k)).1 then clock i regs n (k + 1) (s.phySm i (regs k)).2
      else some (s.phySm i (regs k)).2

/-- A poll -/
def poll (s : LinkState ι μ) (i : ι) (regs : ℕ → PhyRegs) : LinkState ι μ :=
  (clock i regs 4 0 s).getD s

/-- `BT_ConnectPHY` -/
def btConnectPHY (bus : ι → μ) (s : LinkState ι μ) (i : ι) : LinkState ι μ :=
  match (s.phy i).activeMac with
  | some _ => s
  | none =>
    let s := s.setPhy i { s.phy i with activeMac := some (bus i), eState := .starting }
    { s with netifPhy := Function.update s.netifPhy (bus i) (some i) }

/-- `BT_NetifRestartLink` -/
def btNetifRestartLink (s : LinkState ι μ) (m : μ) : LinkState ι μ :=
  match s.netifPhy m with
  | none => s
  | some i => s.setPhy i { s.phy i with eState := .renegotiate }

/-- One step -/
def step (bus : ι → μ) (s : LinkState ι μ) : LinkAction ι μ → LinkState ι μ
  | .poll i regs => s.poll i regs
  | .btConnectPHY i => s.btConnectPHY bus i
  | .btNetifRestartLink m => s.btNetifRestartLink m

/-- The states of the runs whose steps all satisfy `ok`. -/
inductive Run (bus : ι → μ) (ok : LinkState ι μ → LinkAction ι μ → Prop) :
    LinkState ι μ → Prop where
  | nil (supported : ι → ℕ) : Run bus ok (init supported)
  | cons {s : LinkState ι μ} (run : Run bus ok s) {a : LinkAction ι μ} (h : ok s a) : Run bus ok
    (s.step bus a)

/-- The MAC is programmed to the speed and duplex of the PHY. -/
structure Programmed (mac : MacLink) (phy : PhyDevice μ) : Prop where
  /-- the MAC was told the speed and the duplex of the PHY -/
  speed : mac.speed = phy.speed
  duplex : mac.duplex = phy.duplex
  /-- and has the bits that go with them -/
  fden : mac.fden = phy.duplex
  gigeen : mac.gigeen = decide (phy.speed = 1000)
  speed100 : mac.speed100 = decide (phy.speed = 100)
  /-- and the clock -/
  freq : mac.freq = if phy.speed = 1000 then 125000000 else if phy.speed = 100 then 25000000
    else 2500000

/-- After a poll: the interface is up if and only if the link is, and then the MAC is programmed for
it. -/
structure Agrees (s : LinkState ι μ) (i : ι) (m : μ) : Prop where
  /-- the interface is up if and only if there is a link -/
  up : s.netifUp m = (s.phy i).link
  /-- and then its MAC is programmed for it -/
  programmed : s.netifUp m = true → Programmed (s.mac m) (s.phy i)

/-- The clock of a poll that reads the status -/
def readClock (phy : PhyDevice μ) : ℕ :=
  match phy.eState with
  | .starting => 2
  | .renegotiate => 1
  | _ => 0

/-- Each change of the link gets to `BT_PHY_CHANGELINK`: the link of an interface that is up does
not go down with a restart, nor does it change its speed or duplex and stay up; and a MAC is
connected to one PHY. -/
def Careful (bus : ι → μ) (s : LinkState ι μ) : LinkAction ι μ → Prop
  | .poll i regs => ∀ m, (s.phy i).activeMac = some m →
      let found := (s.phy i).readStatus (regs (readClock (s.phy i)))
      ((s.phy i).eState = .renegotiate → s.netifUp m = true → found.link = true) ∧
      ((s.phy i).eState = .up → found.link = true → found.speed = (s.phy i).speed ∧
      found.duplex = (s.phy i).duplex)
  | .btConnectPHY i => (s.phy i).activeMac = none → s.netifPhy (bus i) = none
  | .btNetifRestartLink _ => True

end LinkState

/-! ## Polls end

Each round that asks for another one has brought the state machine to a state of a lower rank. -/

namespace PhyDevice

variable {μ : Type} (phy : PhyDevice μ) (regs : PhyRegs)

/-- What reading the status leaves alone, and what it can find -/
theorem readStatus_spec : (phy.readStatus regs).eState = phy.eState ∧
    (phy.readStatus regs).activeMac = phy.activeMac ∧
    (phy.readStatus regs).link = bit regs.bmsr 0x0004 ∧
    ((phy.readStatus regs).speed = 1000 ∨ (phy.readStatus regs).speed = 100 ∨
    (phy.readStatus regs).speed = 10) := by
  by_cases h : phy.autoneg = true
  · have hread : phy.readStatus regs = (phy.updateLink regs).readNegotiated regs := if_pos h
    rw [hread]
    refine ⟨rfl, rfl, rfl, ?_⟩
    simp only [readNegotiated]
    split_ifs <;> simp
  · have hread : phy.readStatus regs = (phy.updateLink regs).readForced regs := if_neg h
    rw [hread]
    refine ⟨rfl, rfl, rfl, ?_⟩
    simp only [readForced]
    split_ifs <;> simp

/-- How often a state machine can be clocked -/
def rank : ℕ :=
  match phy.eState with
  | .starting => 4
  | .renegotiate => 3
  | .down | .up => 2
  | _ => 1

end PhyDevice

namespace LinkState

variable {ι μ : Type} [DecidableEq ι] [DecidableEq μ] {s : LinkState ι μ} {i : ι}

omit [DecidableEq μ] in
@[simp] theorem phy_setPhy (s : LinkState ι μ) (i : ι) (phy : PhyDevice μ) :
    (s.setPhy i phy).phy i = phy :=
  Function.update_self ..

omit [DecidableEq μ] in
@[simp] theorem setPhy_setPhy (s : LinkState ι μ) (i : ι) (phy phy' : PhyDevice μ) :
    (s.setPhy i phy).setPhy i phy' = s.setPhy i phy' := by
  simp [setPhy]

/-- Each round of the state machine that goes on is nearer to its end. -/
theorem rank_phySm (s : LinkState ι μ) (i : ι) (regs : PhyRegs) (h : (s.phySm i regs).1 = true) :
    ((s.phySm i regs).2.phy i).rank < (s.phy i).rank := by
  unfold phySm at h ⊢
  cases hs : (s.phy i).eState with
  | down | up =>
    simp only [hs] at h ⊢
    split_ifs at h ⊢
    simp [PhyDevice.rank, hs]
  | starting | renegotiate => simp [PhyDevice.rank, hs]
  | changelink =>
    simp only [hs] at h
    cases hm : (s.phy i).activeMac <;> simp [hm] at h
  | _ => simp [hs] at h

/-- The loop ends. -/
theorem clock_ends (regs : ℕ → PhyRegs) : ∀ (n k : ℕ) (s : LinkState ι μ), (s.phy i).rank ≤ n →
    ∃ s', clock i regs n k s = some s'
  | 0, _, s, h => by
    have hpos : 0 < (s.phy i).rank := by
      unfold PhyDevice.rank
      split <;> decide
    omega
  | n + 1, k, s, h => by
    rw [clock]
    split_ifs with hagain
    · have hlt := rank_phySm s i (regs k) hagain
      exact clock_ends regs n (k + 1) _ (by omega)
    · exact ⟨_, rfl⟩

omit [DecidableEq ι] [DecidableEq μ] in
theorem rank_le (phy : PhyDevice μ) : phy.rank ≤ 4 := by
  unfold PhyDevice.rank
  split <;> decide

/-! ## What a poll does

A poll is computed from each state it can start in, and what it does to the device and what it tells
the MAC is read off. -/

/-- `BT_PHY_CHANGELINK` right after reading the status -/
def notify (s : LinkState ι μ) (i : ι) (m : μ) (phy : PhyDevice μ) : LinkState ι μ :=
  (s.setPhy i { phy with eState := .changelink }).changelink i m

variable {bus : ι → μ} {m : μ} {regs : ℕ → PhyRegs} {n k : ℕ}

/-- A link that has changed is told to the MAC, and the rounds end. -/
theorem clock_changelink (h : (s.phy i).eState = .changelink) (hm : (s.phy i).activeMac = some m) :
    clock i regs (n + 1) k s = some (s.changelink i m) := by
  simp [clock, phySm, h, hm]

/-- With the link down -/
theorem clock_down (h : (s.phy i).eState = .down) (hm : (s.phy i).activeMac = some m) :
    clock i regs (n + 2) k s = some (if ((s.phy i).readStatus (regs k)).link
      then s.notify i m ((s.phy i).readStatus (regs k)) else s.setPhy i
      ((s.phy i).readStatus (regs k))) := by
  have hactive := ((s.phy i).readStatus_spec (regs k)).2.1.trans hm
  by_cases hl : ((s.phy i).readStatus (regs k)).link = true
  · rw [clock, if_pos hl]
    simp only [phySm, h, hl, if_true]
    rw [clock_changelink (m := m) (by simp) (by simpa using hactive), notify]
    simp only [hl]
  · rw [clock, if_neg hl]
    simp [phySm, h, hl]

/-- With the link up -/
theorem clock_up (h : (s.phy i).eState = .up) (hm : (s.phy i).activeMac = some m) :
    clock i regs (n + 2) k s = some (if ((s.phy i).readStatus (regs k)).link
      then s.setPhy i ((s.phy i).readStatus (regs k)) else s.notify i m
      ((s.phy i).readStatus (regs k))) := by
  have hactive := ((s.phy i).readStatus_spec (regs k)).2.1.trans hm
  by_cases hl : ((s.phy i).readStatus (regs k)).link = true
  · rw [clock, if_pos hl]
    simp [phySm, h, hl]
  · rw [clock, if_neg hl]
    simp only [phySm, h, hl, Bool.false_eq_true, if_false, if_true]
    rw [clock_changelink (m := m) (by simp) (by simpa using hactive), notify]
    simp only [hl]

/-- A new negotiation is begun, and the rounds go on. -/
theorem clock_renegotiate (h : (s.phy i).eState = .renegotiate) :
    clock i regs (n + 1) k s =
      clock i regs n (k + 1) (s.setPhy i { (s.phy i).phyInit (regs k) with eState := .down }) := by
  simp [clock, phySm, h]

/-- A device that starts is initialised, and they go on. -/
theorem clock_starting (h : (s.phy i).eState = .starting) :
    clock i regs (n + 1) k s =
      clock i regs n (k + 1)
      (s.setPhy i { (s.phy i).phyInit (regs k) with eState := .renegotiate }) := by
  simp [clock, phySm, h]

/-- What is told to the MAC is taken from the device as it is then. -/
@[simp] theorem notify_setPhy (s : LinkState ι μ) (i : ι) (m : μ) (phy phy' : PhyDevice μ) :
    (s.setPhy i phy).notify i m phy' = s.notify i m phy' := by
  simp [notify]

/-- The poll of a connected PHY: the device it reads the status into, and what becomes of it -/
theorem clock_connected (regs : ℕ → PhyRegs) (hm : (s.phy i).activeMac = some m)
    (h : (s.phy i).eState = .starting ∨ (s.phy i).eState = .renegotiate ∨
    (s.phy i).eState = .down) :
    ∃ phy : PhyDevice μ, phy.activeMac = some m ∧ phy.eState = .down ∧
      phy.link = PhyDevice.bit (regs (readClock (s.phy i))).bmsr 0x0004 ∧
      (phy.speed = 1000 ∨ phy.speed = 100 ∨ phy.speed = 10) ∧
      clock i regs 4 0 s = some (if phy.link then s.notify i m phy else s.setPhy i phy) := by
  obtain h | h | h := h
  · rw [clock_starting h, clock_renegotiate
      (by simp), clock_down (m := m) (by simp) (by simpa [PhyDevice.phyInit] using hm)]
    simp only [phy_setPhy, setPhy_setPhy, notify_setPhy, readClock, h]
    have hspec := PhyDevice.readStatus_spec
      { PhyDevice.phyInit { (s.phy i).phyInit (regs 0) with eState := .renegotiate }
        (regs 1) with eState := .down } (regs 2)
    exact ⟨_, hspec.2.1.trans hm, hspec.1, hspec.2.2.1, hspec.2.2.2, rfl⟩
  · rw [clock_renegotiate h, clock_down (m := m) (by simp) (by simpa [PhyDevice.phyInit] using hm)]
    simp only [phy_setPhy, setPhy_setPhy, notify_setPhy, readClock, h]
    have hspec := PhyDevice.readStatus_spec { (s.phy i).phyInit (regs 0) with eState := .down }
      (regs 1)
    exact ⟨_, hspec.2.1.trans hm, hspec.1, hspec.2.2.1, hspec.2.2.2, rfl⟩
  · rw [clock_down h hm]
    simp only [readClock, h]
    have hspec := (s.phy i).readStatus_spec (regs 0)
    exact ⟨_, hspec.2.1.trans hm, hspec.1.trans h, hspec.2.2.1, hspec.2.2.2, rfl⟩

/-- The state machine of a PHY without a MAC changes that PHY. -/
theorem phySm_alone (s : LinkState ι μ) (i : ι) (regs : PhyRegs) (hm : (s.phy i).activeMac = none) :
    ∃ phy : PhyDevice μ, phy.activeMac = none ∧ (s.phySm i regs).2 = s.setPhy i phy := by
  have hself : s = s.setPhy i (s.phy i) := by simp [setPhy]
  have hread := ((s.phy i).readStatus_spec regs).2.1.trans hm
  unfold phySm
  cases hs : (s.phy i).eState with
  | down | up =>
    simp only [hs]
    split_ifs
    · refine ⟨_, ?_, rfl⟩
      exact hread
    · refine ⟨_, ?_, rfl⟩
      exact hread
  | starting | renegotiate =>
    simp only [hs]
    refine ⟨_, ?_, rfl⟩
    exact hm
  | changelink => exact ⟨_, hm, by simpa [hs, hm] using hself⟩
  | _ => exact ⟨_, hm, by simpa only [hs] using hself⟩

/-- Without a MAC the device is the only thing that changes. -/
theorem clock_alone (regs : ℕ → PhyRegs) :
    ∀ (n k : ℕ) (s s' : LinkState ι μ), (s.phy i).activeMac = none →
    clock i regs n k s = some s' → ∃ phy : PhyDevice μ, phy.activeMac = none ∧ s' = s.setPhy i phy
  | n + 1, k, s, s', hm, h => by
    obtain ⟨phy, hphy, hsm⟩ := phySm_alone s i (regs k) hm
    rw [clock, hsm] at h
    split_ifs at h
    · obtain ⟨phy', hphy', rfl⟩ := clock_alone regs n (k + 1) _ s' (by simpa using hphy) h
      exact ⟨phy', hphy', by simp⟩
    · exact ⟨phy, hphy, (Option.some.inj h).symm⟩

/-! ## The invariant

The invariant is about a PHY, its MAC and its interface together, and a step of one PHY changes
these three only. -/

/-- The registers of a MAC are those of its speed and duplex. -/
def Encoded (mac : MacLink) : Prop := mac.program mac.speed mac.duplex = mac

/-- A connected PHY with its MAC and interface, state by state -/
structure Fits (up : Bool) (mac : MacLink) (phy : PhyDevice μ) : Prop where
  /-- an interface that is up is programmed for its PHY -/
  programmed : up = true → Programmed mac phy
  /-- whether it is up can be told from the state of the PHY -/
  state : match phy.eState with
    | .starting | .down => up = false
    | .renegotiate => True
    | .up => up = true
    | _ => False

/-- The invariant -/
structure Ok (s : LinkState ι μ) : Prop where
  /-- the PHY of a MAC, and the MAC of a PHY, belong together -/
  active {i : ι} {m : μ} : (s.phy i).activeMac = some m → s.netifPhy m = some i
  owner {i : ι} {m : μ} : s.netifPhy m = some i → (s.phy i).activeMac = some m
  /-- an interface without a PHY is down -/
  alone {m : μ} : s.netifPhy m = none → s.netifUp m = false
  /-- what a MAC was programmed with is encoded in its registers -/
  mac {m : μ} : (s.mac m).speed ≠ 0 → Encoded (s.mac m)
  /-- and is what the state of its PHY says -/
  fits {i : ι} {m : μ} : (s.phy i).activeMac = some m → Fits (s.netifUp m) (s.mac m) (s.phy i)

section Mac

variable {mac : MacLink} {phy : PhyDevice μ}

omit [DecidableEq μ] in
/-- A MAC that was told the device's speed and duplex is programmed for them. -/
theorem programmed_of_encoded (h : Encoded mac) (hspeed : mac.speed = phy.speed)
    (hduplex : mac.duplex = phy.duplex) :
    Programmed mac phy := by
  rw [Encoded, hspeed, hduplex] at h
  rw [← h]
  exact ⟨rfl, rfl, rfl, rfl, rfl, rfl⟩

omit [DecidableEq μ] in
/-- What the MAC is told about a link -/
theorem macAdjustLink_spec (hmac : mac.speed ≠ 0 → Encoded mac)
    (hspeed : phy.speed = 1000 ∨ phy.speed = 100 ∨ phy.speed = 10) :
    ((mac.macAdjustLink phy).speed ≠ 0 → Encoded (mac.macAdjustLink phy)) ∧
      (phy.link = true → Programmed (mac.macAdjustLink phy) phy) := by
  unfold MacLink.macAdjustLink
  split_ifs with hchanged
  · exact ⟨fun _ => rfl, fun _ => ⟨rfl, rfl, rfl, rfl, rfl, rfl⟩⟩
  · have hencoded (h : mac.speed ≠ 0) : Encoded { mac with link := phy.link } := by
      have hlink := congrArg (fun mac' : MacLink => { mac' with link := phy.link }) (hmac h)
      exact hlink
    refine ⟨hencoded, fun hlink => ?_⟩
    -- the MAC has the PHY's speed already, which is one of three
    obtain ⟨hs, hd⟩ : mac.speed = phy.speed ∧ mac.duplex = phy.duplex := by
      simpa [hlink, not_or] using hchanged
    exact programmed_of_encoded (hencoded (by omega)) hs hd

end Mac

/-- A connected PHY, its MAC and its interface all change. -/
def put (s : LinkState ι μ) (i : ι) (m : μ) (phy : PhyDevice μ) (mac : MacLink) (up : Bool) :
    LinkState ι μ :=
  { s with
    phy := Function.update s.phy i phy
    mac := Function.update s.mac m mac
    netifUp := Function.update s.netifUp m up }

/-- To set a device is to put it back beside its MAC and interface. -/
theorem setPhy_eq_put (s : LinkState ι μ) (i : ι) (m : μ) (phy : PhyDevice μ) :
    s.setPhy i phy = s.put i m phy (s.mac m) (s.netifUp m) := by
  simp [setPhy, put]

theorem notify_eq_put (hm : s.netifPhy m = some i) (phy : PhyDevice μ) :
    s.notify i m phy =
      s.put i m { phy with eState := if phy.link then .up else .down }
      ((s.mac m).macAdjustLink phy) phy.link := by
  simp [notify, changelink, btNetifAdjustLink, setPhy, put, hm, MacLink.macAdjustLink]

/-- The invariant is kept if the three fit together. -/
theorem ok_put (ok : Ok s) (hm : (s.phy i).activeMac = some m) {phy : PhyDevice μ} {mac : MacLink}
    {up : Bool} (hphy : phy.activeMac = some m) (hmac : mac.speed ≠ 0 → Encoded mac)
    (hfits : Fits up mac phy) :
    Ok (s.put i m phy mac up) where
  active {j m'} h := by
    by_cases hj : j = i
    · subst hj
      have hm' : some m = some m' := by simpa [put, hphy] using h
      exact ok.active (hm.trans hm')
    · exact ok.active (by simpa [put, hj] using h)
  owner {j m'} h := by
    by_cases hj : j = i
    · subst hj
      have hm' : some m = some m' := hm.symm.trans (ok.owner h)
      simpa [put, hphy] using hm'
    · simpa [put, hj] using ok.owner h
  alone {m'} h := by
    have hne : m' ≠ m := by
      rintro rfl
      exact absurd ((ok.active hm).symm.trans h) (by simp)
    simpa [put, hne] using ok.alone h
  mac {m'} := by
    by_cases hm' : m' = m
    · subst hm'
      simpa [put] using hmac
    · simpa [put, hm'] using ok.mac
  fits {j m'} h := by
    by_cases hj : j = i
    · subst hj
      obtain rfl : m = m' := by simpa [put, hphy] using h
      simpa [put] using hfits
    · have h' : (s.phy j).activeMac = some m' := by simpa [put, hj] using h
      have hne : m' ≠ m := by
        rintro rfl
        exact hj (Option.some.inj ((ok.active h').symm.trans (ok.active hm)))
      simpa [put, hj, hne] using ok.fits h'

theorem ok_notify (ok : Ok s) (hm : (s.phy i).activeMac = some m) {phy : PhyDevice μ}
    (hphy : phy.activeMac = some m) (hspeed : phy.speed = 1000 ∨ phy.speed = 100 ∨ phy.speed = 10) :
    Ok (s.notify i m phy) ∧ ((s.notify i m phy).phy i).link = phy.link ∧
      Agrees (s.notify i m phy) i m := by
  obtain ⟨hmac, hprogrammed⟩ := macAdjustLink_spec (ok.mac (m := m)) hspeed
  have hkept : phy.link = true → Programmed ((s.mac m).macAdjustLink phy)
      { phy with eState := if phy.link then .up else .down } := by
    intro h
    obtain ⟨h1, h2, h3, h4, h5, h6⟩ := hprogrammed h
    exact ⟨h1, h2, h3, h4, h5, h6⟩
  rw [notify_eq_put (ok.active hm)]
  refine ⟨ok_put ok hm hphy hmac
    ⟨hkept, ?_⟩, by simp [put], by simp [put], by simpa [put] using hkept⟩
  cases hl : phy.link <;> simp

/-! ## The results

Each kind of poll keeps the invariant, and one that has been told of each change agrees with the
link in the end. -/

/-- A PHY that is polled without notifying anyone -/
theorem ok_quiet (ok : Ok s) (hm : (s.phy i).activeMac = some m) {phy : PhyDevice μ}
    (hphy : phy.activeMac = some m) (hfits : Fits (s.netifUp m) (s.mac m) phy) :
    Ok (s.setPhy i phy) := by
  rw [setPhy_eq_put s i m]
  exact ok_put ok hm hphy ok.mac hfits

/-- The poll of a PHY whose link was up -/
theorem poll_up (ok : Ok s) (hm : (s.phy i).activeMac = some m) (hup : (s.phy i).eState = .up)
    (regs : ℕ → PhyRegs) (hkept : ((s.phy i).readStatus (regs 0)).link = true →
      ((s.phy i).readStatus (regs 0)).speed = (s.phy i).speed ∧
        ((s.phy i).readStatus (regs 0)).duplex = (s.phy i).duplex) :
    ∃ s', clock i regs 4 0 s = some s' ∧ Ok s' ∧
      (s'.phy i).link = PhyDevice.bit (regs 0).bmsr 0x0004 ∧ Agrees s' i m := by
  obtain ⟨heState, hactive, hlink, hspeed⟩ := (s.phy i).readStatus_spec (regs 0)
  have hfits := ok.fits hm
  have hnetif : s.netifUp m = true := by simpa [hup] using hfits.state
  rw [clock_up hup hm, ← hlink]
  refine ⟨_, rfl, ?_⟩
  by_cases hl : ((s.phy i).readStatus (regs 0)).link = true
  · obtain ⟨h1, h2⟩ := hkept hl
    obtain ⟨p1, p2, p3, p4, p5, p6⟩ := hfits.programmed hnetif
    have hprogrammed : Programmed (s.mac m) ((s.phy i).readStatus (regs 0)) := by
      constructor <;> simp only [h1, h2, p1, p2, p3, p4, p5, p6]
    rw [if_pos hl]
    refine ⟨ok_quiet ok hm (hactive.trans hm) ⟨fun _ => hprogrammed, ?_⟩, by simp, ?_, ?_⟩
    · simpa [heState, hup] using hnetif
    · rw [phy_setPhy, hl]
      exact hnetif
    · rw [phy_setPhy]
      exact fun _ => hprogrammed
  · rw [if_neg hl]
    exact ok_notify ok hm (hactive.trans hm) hspeed

/-- The poll of a PHY whose link was down, or is to be negotiated -/
theorem poll_down (ok : Ok s) (hm : (s.phy i).activeMac = some m) (hup : (s.phy i).eState ≠ .up)
    (regs : ℕ → PhyRegs) (hrestart : (s.phy i).eState = .renegotiate → s.netifUp m = true →
      PhyDevice.bit (regs (readClock (s.phy i))).bmsr 0x0004 = true) :
    ∃ s', clock i regs 4 0 s = some s' ∧ Ok s' ∧
      (s'.phy i).link = PhyDevice.bit (regs (readClock (s.phy i))).bmsr 0x0004 ∧ Agrees s' i m := by
  have hfits := (ok.fits hm).state
  have hstate : (s.phy i).eState = .starting ∨ (s.phy i).eState = .renegotiate ∨
      (s.phy i).eState = .down := by
    cases hs : (s.phy i).eState <;> simp_all
  obtain ⟨phy, hactive, heState, hlink, hspeed, hclock⟩ := clock_connected regs hm hstate
  rw [← hlink] at hrestart ⊢
  rw [hclock]
  refine ⟨_, rfl, ?_⟩
  by_cases hl : phy.link = true
  · rw [if_pos hl]
    exact ok_notify ok hm hactive hspeed
  · -- the interface is down already
    have hnetif : s.netifUp m = false := by
      obtain h | h | h := hstate
      · simpa [h] using hfits
      · by_contra hne
        exact hl (hrestart h (by simpa using hne))
      · simpa [h] using hfits
    rw [if_neg hl]
    refine ⟨ok_quiet ok hm hactive
      ⟨by simp [hnetif], by simpa [heState] using hnetif⟩, by simp, ?_, ?_⟩
    · simpa [setPhy, hnetif] using hl
    · simp [setPhy, hnetif]

/-- A poll of a connected device ends, and the device has the link that the registers say. -/
theorem poll_connected (ok : Ok s) (hm : (s.phy i).activeMac = some m) (regs : ℕ → PhyRegs)
    (hcare : Careful bus s (.poll i regs)) :
    ∃ s', clock i regs 4 0 s = some s' ∧ Ok s' ∧
      (s'.phy i).link = PhyDevice.bit (regs (readClock (s.phy i))).bmsr 0x0004 ∧ Agrees s' i m := by
  obtain ⟨hrestart, hkept⟩ := hcare m hm
  by_cases hup : (s.phy i).eState = .up
  · have hclock : readClock (s.phy i) = 0 := by simp [readClock, hup]
    rw [hclock] at hkept ⊢
    exact poll_up ok hm hup regs (hkept hup)
  · refine poll_down ok hm hup regs fun h h' => ?_
    rw [← ((s.phy i).readStatus_spec _).2.2.1]
    exact hrestart h h'

omit [DecidableEq μ] in
/-- The other polls -/
theorem poll_alone (ok : Ok s) (hm : (s.phy i).activeMac = none) {phy : PhyDevice μ}
    (hphy : phy.activeMac = none) :
    Ok (s.setPhy i phy) where
  active {j m} h := by
    by_cases hj : j = i
    · subst hj
      simp [hphy] at h
    · exact ok.active (by simpa [setPhy, hj] using h)
  owner {j m} h := by
    have hj : j ≠ i := by
      rintro rfl
      exact absurd (hm.symm.trans (ok.owner h)) (by simp)
    simpa [setPhy, hj] using ok.owner h
  alone := ok.alone
  mac := ok.mac
  fits {j m} h := by
    by_cases hj : j = i
    · subst hj
      simp [hphy] at h
    · simpa [setPhy, hj] using ok.fits (i := j) (m := m) (by simpa [setPhy, hj] using h)

theorem ok_btConnectPHY (ok : Ok s) (hcare : Careful bus s (.btConnectPHY i)) :
    Ok (s.btConnectPHY bus i) := by
  unfold btConnectPHY
  split
  · exact ok
  · next hnone =>
    have halone := hcare hnone
    have hother {j : ι} {m : μ} (h : (s.phy j).activeMac = some m) : j ≠ i ∧ m ≠ bus i := by
      constructor
      · rintro rfl
        exact absurd (hnone.symm.trans h) (by simp)
      · rintro rfl
        exact absurd (halone.symm.trans (ok.active h)) (by simp)
    constructor
    · intro j m h
      by_cases hj : j = i
      · subst hj
        obtain rfl : bus j = m := by simpa [setPhy] using h
        simp
      · have h' : (s.phy j).activeMac = some m := by simpa [setPhy, hj] using h
        simpa [setPhy, (hother h').2] using ok.active h'
    · intro j m h
      by_cases hm : m = bus i
      · subst hm
        obtain rfl : i = j := by simpa using h
        simp [setPhy]
      · have h' := ok.owner (i := j) (m := m) (by simpa [setPhy, hm] using h)
        simpa [setPhy, (hother h').1] using h'
    · intro m h
      by_cases hm : m = bus i
      · simp [hm] at h
      · exact ok.alone (by simpa [setPhy, hm] using h)
    · exact ok.mac
    · intro j m h
      by_cases hj : j = i
      · subst hj
        obtain rfl : bus j = m := by simpa [setPhy] using h
        have hdown := ok.alone halone
        exact ⟨by simp [setPhy, hdown], by simpa [setPhy] using hdown⟩
      · simpa [setPhy, hj] using ok.fits (i := j) (m := m) (by simpa [setPhy, hj] using h)

theorem ok_btNetifRestartLink (ok : Ok s) (m : μ) : Ok (s.btNetifRestartLink m) := by
  unfold btNetifRestartLink
  split
  · exact ok
  · next i h =>
    have hm := ok.owner h
    refine ok_quiet ok hm (by exact hm) ⟨fun hup => ?_, trivial⟩
    obtain ⟨h1, h2, h3, h4, h5, h6⟩ := (ok.fits hm).programmed hup
    exact ⟨h1, h2, h3, h4, h5, h6⟩

theorem ok_of_run (run : Run bus (Careful bus) s) : Ok s := by
  induction run with
  | nil supported => constructor <;> simp [init]
  | @cons s run a hcare ok =>
    cases a with
    | poll i regs =>
      obtain ⟨s', h⟩ := clock_ends regs 4 0 s (rank_le (s.phy i))
      have hpoll : s.poll i regs = s' := by rw [poll, h, Option.getD_some]
      simp only [step, hpoll]
      cases hm : (s.phy i).activeMac with
      | none =>
        obtain ⟨phy, hphy, rfl⟩ := clock_alone regs 4 0 s s' hm h
        exact poll_alone ok hm hphy
      | some m =>
        obtain ⟨_, h', hok, -⟩ := poll_connected ok hm regs hcare
        exact Option.some.inj (h.symm.trans h') ▸ hok
    | btConnectPHY i => exact ok_btConnectPHY ok hcare
    | btNetifRestartLink m => exact ok_btNetifRestartLink ok m

/-- Each poll ends. If each change of the link has been notified of, then the MAC of an interface
that is up is always programmed to the speed and duplex of its PHY, and after a poll that does so
too the interface is up if and only if the link read at it is. -/
theorem link_agrees (run : Run bus (Careful bus) s) (i : ι) (regs : ℕ → PhyRegs) :
    ∃ s', clock i regs 4 0 s = some s' ∧ ∀ m, (s.phy i).activeMac = some m →
      (s.netifUp m = true → Programmed (s.mac m) (s.phy i)) ∧
      (Careful bus s (.poll i regs) →
        (s'.phy i).link = PhyDevice.bit (regs (readClock (s.phy i))).bmsr 0x0004 ∧
          Agrees s' i m) := by
  have ok := ok_of_run run
  obtain ⟨s', h⟩ := clock_ends regs 4 0 s (rank_le (s.phy i))
  refine ⟨s', h, fun m hm => ⟨(ok.fits hm).programmed, fun hcare => ?_⟩⟩
  obtain ⟨s'', h', -, hresult⟩ := poll_connected ok hm regs hcare
  exact Option.some.inj (h.symm.trans h') ▸ hresult

/-- Registers of a PHY that has negotiated 100 Mbit/s and full duplex, with the link up or down -/
def negotiated (link : Bool) : PhyRegs := ⟨0, if link then 0x0004 else 0, 0x0100, 0x0100, 0, 0, 0⟩

/-- A PHY that has been connected -/
def connected : LinkState Unit Unit := (init fun _ => 0).btConnectPHY id ()

/-- A device that is connected and finds its link up. -/
theorem link_agrees_connected : ∃ s', clock () (fun _ => negotiated true) 4 0 connected = some s' ∧
    s'.netifUp () = true ∧ Programmed (s'.mac ()) (s'.phy ()) := by
  have run : Run id (Careful id) connected := .cons (a := .btConnectPHY ()) (.nil _) fun _ => rfl
  obtain ⟨s', h, hresult⟩ := link_agrees run () fun _ => negotiated true
  obtain ⟨hlink, hagrees⟩ :=
    (hresult () rfl).2 fun m _ => ⟨fun h _ => absurd h (by decide), fun h => absurd h (by decide)⟩
  have hup : s'.netifUp () = true := hagrees.up.trans hlink
  exact ⟨s', h, hup, hagrees.programmed hup⟩

/-- The link is restarted and found down: nobody is told. -/
theorem restart_leaves_netif_up :
    let s := (connected.poll () fun _ => negotiated true).btNetifRestartLink ()
    Run id (fun _ _ => True) s ∧ (s.phy ()).activeMac = some () ∧
      ¬Agrees (s.poll () fun _ => negotiated false) () () := by
  refine ⟨.cons (a := .btNetifRestartLink ()) (.cons (a := .poll () fun _ => negotiated true)
    (.cons (a := .btConnectPHY ()) (.nil _) trivial) trivial) trivial, rfl, fun hagrees => ?_⟩
  exact absurd hagrees.up (by decide)

end LinkState

end BitThunder
