import Mathlib.Data.List.Induction
import OnyxServer.ChatWorld.World
import OnyxServer.Lib.Trace

/-!
# The join throttle

`world.zig`: a channel with a rate remembers when it let somebody in and denies a join while as
many of those instants as the rate allows are younger than the window. Instants are readings of
one clock, so their differences fit in a word.
-/
namespace OnyxServer.ChatWorld

open Lib Text List

inductive ThrottleResult where
  | admitted
  | throttled
  | throttledAlert
  deriving DecidableEq

structure EffectiveJoinThrottle where
  joins : UInt16
  windowMs : Int
  deriving DecidableEq

def throttleTimestampActive (nowMs : Int64) (windowMs : Int) (ts : Int64) : Bool :=
  decide (nowMs.toInt - ts.toInt < windowMs)

namespace Channel

def effectiveJoinThrottle (channel : Channel) (defaultJoins : UInt16) (defaultSecs : UInt32) :
    Option EffectiveJoinThrottle :=
  let explicit := channel.throttleJoins != 0
  let joins := if explicit then channel.throttleJoins else defaultJoins
  let secs := if explicit then channel.throttleSecs else defaultSecs
  if joins = 0 ∨ secs = 0 then none else some ⟨joins, secs.toNat * 1000⟩

def withThrottle (channel : Channel) (joins : UInt16) (secs : UInt32) : Channel :=
  { channel with
    throttleJoins := joins, throttleSecs := secs, throttleTimes := [], throttleAlertMs := 0 }

/-- The expired instants are compacted away in place. -/
def prune (channel : Channel) (nowMs : Int64) (windowMs : Int) : Channel :=
  { channel with throttleTimes :=
    channel.throttleTimes.filter (throttleTimestampActive nowMs windowMs) }

/-- The first denial of a window raises an alert; an admission without memory for its instant
leaves no trace. -/
def throttleAdmit (channel : Channel) (nowMs : Int64) (rate : EffectiveJoinThrottle)
    (alloc : Bool) :
    ThrottleResult × Channel :=
  let pruned := channel.prune nowMs rate.windowMs
  if rate.joins.toNat ≤ pruned.throttleTimes.length then
    if channel.throttleAlertMs = 0 ∨
      rate.windowMs ≤ nowMs.toInt - channel.throttleAlertMs.toInt then
      (.throttledAlert, { pruned with throttleAlertMs := nowMs })
    else (.throttled, pruned)
  else if !alloc then (.admitted, pruned)
  else (.admitted, { pruned with throttleTimes := pruned.throttleTimes ++ [nowMs] })

end Channel

namespace World

def setThrottle (world : World) (name : Bytes) (joins : UInt16) (secs : UInt32) :
    Except WorldError Unit × World :=
  if (world.getChannel name).isNone then (.error .noSuchChannel, world)
  else
    (.ok (), { world with
      channels := HashMap.adjust (lowerString name) (·.withThrottle joins secs) world.channels })

def clearThrottle (world : World) (name : Bytes) : Except WorldError Unit × World :=
  world.setThrottle name 0 0

def throttleWouldDeny (world : World) (name : Bytes) (nowMs : Int64) (defaultJoins : UInt16)
    (defaultSecs : UInt32) : Bool :=
  match world.getChannel name with
  | none => false
  | some channel =>
    match channel.effectiveJoinThrottle defaultJoins defaultSecs with
    | none => false
    | some rate =>
      decide (rate.joins.toNat ≤
        channel.throttleTimes.countP (throttleTimestampActive nowMs rate.windowMs))

def throttleAdmit (world : World) (name : Bytes) (nowMs : Int64) (defaultJoins : UInt16)
    (defaultSecs : UInt32) (alloc : Bool) : ThrottleResult × World :=
  match world.getChannel name with
  | none => (.admitted, world)
  | some channel =>
    match channel.effectiveJoinThrottle defaultJoins defaultSecs with
    | none => (.admitted, world)
    | some rate =>
      let outcome := channel.throttleAdmit nowMs rate alloc
      (outcome.1,
        { world with channels :=
          HashMap.adjust (lowerString name) (fun _ => outcome.2) world.channels })

end World

variable {channel after : Channel} {world : World} {nowMs : Int64} {windowMs : Int} {name : Bytes}
variable {rate : EffectiveJoinThrottle} {result : ThrottleResult} {defaultJoins : UInt16}
    {defaultSecs : UInt32}

theorem length_prune : (channel.prune nowMs windowMs).throttleTimes.length =
    channel.throttleTimes.countP (throttleTimestampActive nowMs windowMs) :=
    countP_eq_length_filter.symm

/-- What becomes of a join whose instant there is memory for. -/
inductive Judged (channel : Channel) (nowMs : Int64) (rate : EffectiveJoinThrottle) :
    ThrottleResult → Channel → Prop
  | admitted : (channel.prune nowMs rate.windowMs).throttleTimes.length < rate.joins.toNat →
    Judged channel nowMs rate .admitted { channel with
      throttleTimes := (channel.prune nowMs rate.windowMs).throttleTimes ++ [nowMs] }
  | throttled : rate.joins.toNat ≤ (channel.prune nowMs rate.windowMs).throttleTimes.length →
    channel.throttleAlertMs ≠ 0 → nowMs.toInt - channel.throttleAlertMs.toInt < rate.windowMs →
    Judged channel nowMs rate .throttled (channel.prune nowMs rate.windowMs)
  | throttledAlert : rate.joins.toNat ≤ (channel.prune nowMs rate.windowMs).throttleTimes.length →
    (channel.throttleAlertMs = 0 ∨ rate.windowMs ≤ nowMs.toInt - channel.throttleAlertMs.toInt) →
    Judged channel nowMs rate .throttledAlert { channel.prune nowMs rate.windowMs with
      throttleAlertMs := nowMs }

theorem throttleAdmit_judged (channel : Channel) (nowMs : Int64) (rate : EffectiveJoinThrottle) :
    Judged channel nowMs rate (channel.throttleAdmit nowMs rate true).1
      (channel.throttleAdmit nowMs rate true).2 := by
  unfold Channel.throttleAdmit
  simp only
  split
  · next hfull =>
    split
    · next hold => exact .throttledAlert hfull hold
    · next hyoung =>
      rw [not_or, Int.not_le] at hyoung
      exact .throttled hfull hyoung.1 hyoung.2
  · next hroom => exact .admitted (Nat.not_le.mp hroom)

theorem Judged.same (h : Judged channel nowMs rate result after) :
    after.throttleJoins = channel.throttleJoins ∧ after.throttleSecs = channel.throttleSecs := by
  cases h with
  | admitted => exact ⟨rfl, rfl⟩
  | throttled => exact ⟨rfl, rfl⟩
  | throttledAlert => exact ⟨rfl, rfl⟩

theorem throttleWouldDeny_iff (world : World) (name : Bytes) (nowMs : Int64) (defaultJoins : UInt16)
    (defaultSecs : UInt32) (alloc : Bool) :
    world.throttleWouldDeny name nowMs defaultJoins defaultSecs = true ↔
      (world.throttleAdmit name nowMs defaultJoins defaultSecs alloc).1 ≠ .admitted := by
  unfold World.throttleWouldDeny World.throttleAdmit
  cases world.getChannel name with
  | none => simp
  | some channel =>
    simp only
    cases channel.effectiveJoinThrottle defaultJoins defaultSecs with
    | none => simp
    | some rate =>
      simp only [Channel.throttleAdmit, length_prune, decide_eq_true_eq]
      split
      · next hfull => split <;> simp [hfull]
      · next hroom => split <;> simp [hroom]

/-- When a join was asked for, and what became of it. -/
abbrev Entry := Int × ThrottleResult

/-- The admissions that lie less than a window before an instant. -/
def recent (windowMs : Int) (log : List Entry) (now : Int) : Nat :=
  log.countP fun e => decide (e.2 = .admitted ∧ now - e.1 < windowMs)

/-- No alert lies less than a window before the instant. -/
def Quiet (windowMs : Int) (log : List Entry) (now : Int) : Prop :=
  ∀ e ∈ log, e.2 = .throttledAlert → windowMs ≤ now - e.1

/-- A result that is right after what went before. -/
structure Decided (rate : EffectiveJoinThrottle) (log : List Entry) (now : Int)
    (result : ThrottleResult) : Prop where
  denied : result ≠ .admitted ↔ rate.joins.toNat ≤ recent rate.windowMs log now
  alert : result = .throttledAlert ↔ result ≠ .admitted ∧ Quiet rate.windowMs log now

/-- What the channel remembers of its joins. -/
structure Recorded (windowMs : Int) (log : List Entry) (channel : Channel) : Prop where
  times : ∀ now, (∀ e ∈ log, e.1 ≤ now) →
    channel.throttleTimes.countP (fun ts => decide (now - ts.toInt < windowMs)) =
      recent windowMs log now
  alerts : ∀ e ∈ log, e.2 = .throttledAlert → channel.throttleAlertMs ≠ 0 ∧
    e.1 ≤ channel.throttleAlertMs.toInt
  alerted : channel.throttleAlertMs ≠ 0 →
    (channel.throttleAlertMs.toInt, ThrottleResult.throttledAlert) ∈ log

variable {log : List Entry} {now : Int}

theorem Recorded.quiet (h : Recorded windowMs log channel) :
    Quiet windowMs log now ↔ channel.throttleAlertMs = 0 ∨
    windowMs ≤ now - channel.throttleAlertMs.toInt := by
  constructor
  · intro hquiet
    by_cases hzero : channel.throttleAlertMs = 0
    · exact .inl hzero
    · exact .inr (hquiet _ (h.alerted hzero) rfl)
  · intro halert e he hresult
    obtain ⟨hsome, hle⟩ := h.alerts e he hresult
    have hold := halert.resolve_left hsome
    omega

theorem Recorded.judged (h : Recorded rate.windowMs log channel) (hnow : 0 < nowMs.toInt)
    (hlast : ∀ e ∈ log, e.1 ≤ nowMs.toInt) (hjudged : Judged channel nowMs rate result after) :
    Decided rate log nowMs.toInt result ∧
    Recorded rate.windowMs (log ++ [(nowMs.toInt, result)]) after := by
  have hcount : (channel.prune nowMs rate.windowMs).throttleTimes.length =
      recent rate.windowMs log nowMs.toInt :=
    length_prune.trans (h.times _ hlast)
  -- an instant that is young later on is young now
  have hkept {now : Int} (hall : ∀ e ∈ log ++ [(nowMs.toInt, result)], e.1 ≤ now) :
      (channel.prune nowMs rate.windowMs).throttleTimes.countP
        (fun ts => decide (now - ts.toInt < rate.windowMs)) =
        recent rate.windowMs log now := by
    have hle := hall _ (mem_append_right _ (mem_singleton_self _))
    rw [Channel.prune, countP_filter, ← h.times now fun e he => hall e (mem_append_left _ he)]
    refine countP_congr fun ts _ => ?_
    simp only [throttleTimestampActive, Bool.and_eq_true, decide_eq_true_eq]
    omega
  have hlog (now : Int) : recent rate.windowMs (log ++ [(nowMs.toInt, result)]) now =
      recent rate.windowMs log now + if result = .admitted ∧
        now - nowMs.toInt < rate.windowMs then 1 else 0 := by
    simp [recent, countP_append, countP_singleton]
  have halerts (hresult : result ≠ .throttledAlert) : ∀ e ∈ log ++ [(nowMs.toInt, result)],
      e.2 = .throttledAlert → channel.throttleAlertMs ≠ 0 ∧
        e.1 ≤ channel.throttleAlertMs.toInt := by
    intro e he halert
    rcases mem_append.mp he with he | he
    · exact h.alerts e he halert
    · obtain rfl := mem_singleton.mp he
      exact absurd halert hresult
  cases hjudged with
  | admitted hroom =>
    refine ⟨⟨⟨fun hne => absurd rfl hne, fun hfull => by
      omega⟩, ⟨nofun, fun hboth => absurd rfl hboth.1⟩⟩,
      fun now hall => ?_, halerts nofun, fun hsome => mem_append_left _ (h.alerted hsome)⟩
    simp only [countP_append, hkept hall, countP_singleton, hlog, true_and, decide_eq_true_eq]
  | throttled hfull hsome hyoung =>
    refine ⟨⟨⟨fun _ => hcount ▸ hfull, nofun⟩, ⟨nofun, fun hboth => ?_⟩⟩, fun now hall => ?_,
      halerts nofun, fun hsome => mem_append_left _ (h.alerted hsome)⟩
    · have hold := (h.quiet.mp hboth.2).resolve_left hsome
      omega
    · rw [hlog, if_neg (by simp)]
      exact hkept hall
  | throttledAlert hfull hold =>
    refine ⟨⟨⟨fun _ => hcount ▸ hfull, nofun⟩, ⟨fun _ => ⟨nofun, h.quiet.mpr hold⟩, fun _ => rfl⟩⟩,
      fun now hall => ?_, fun e he _ => ⟨?_, ?_⟩, fun _ =>
      mem_append_right _ (mem_singleton_self _)⟩
    · rw [hlog, if_neg (by simp)]
      exact hkept hall
    · rintro rfl
      exact absurd hnow (by decide)
    · rcases mem_append.mp he with he | he
      · exact hlast e he
      · obtain rfl := mem_singleton.mp he
        exact Int.le_refl _

/-- Results each right after what went before let at most the rate of joins into a window. -/
theorem admitted_le
    (hall : ∀ earlier e later, log = earlier ++ e :: later → Decided rate earlier e.1 e.2)
    (start : Int) :
    log.countP (fun e => decide (e.2 = .admitted ∧ start ≤ e.1 ∧ e.1 < start + rate.windowMs)) ≤
      rate.joins.toNat := by
  induction log using List.reverseRecOn with
  | nil => exact Nat.zero_le _
  | append_singleton log e ih =>
    have hbefore := ih fun earlier e' later hsplit =>
      hall earlier e' (later ++ [e]) (by rw [hsplit, append_assoc, cons_append])
    rw [countP_append, countP_singleton]
    split
    · next hin =>
      obtain ⟨hadmitted, hstart, hstop⟩ := of_decide_eq_true hin
      have hroom : recent rate.windowMs log e.1 < rate.joins.toNat :=
        Nat.not_le.mp fun hfull => (hall log e [] rfl).denied.mpr hfull hadmitted
      -- whoever is in the window is young at its last admission
      have hsub :
          log.countP
          (fun e' => decide (e'.2 = .admitted ∧ start ≤ e'.1 ∧ e'.1 < start + rate.windowMs)) ≤
          recent rate.windowMs log e.1 := by
        refine countP_mono_left fun e' _ he' => ?_
        obtain ⟨hresult, hle, -⟩ := of_decide_eq_true he'
        exact decide_eq_true ⟨hresult, by omega⟩
      exact Nat.succ_le_of_lt (hsub.trans_lt hroom)
    · exact hbefore

/-- A denial falls on a window that is exactly full. -/
theorem recent_le
    (hall : ∀ earlier e later, log = earlier ++ e :: later → Decided rate earlier e.1 e.2)
    (hlast : ∀ e ∈ log, e.1 ≤ now) : recent rate.windowMs log now ≤ rate.joins.toNat := by
  refine Nat.le_trans (countP_mono_left fun e he hrecent => ?_)
    (admitted_le hall (now + 1 - rate.windowMs))
  obtain ⟨hresult, hyoung⟩ := of_decide_eq_true hrecent
  have hle := hlast e he
  exact decide_eq_true ⟨hresult, by omega, by omega⟩

structure JoinCall where
  nowMs : Int64
  defaultJoins : UInt16
  defaultSecs : UInt32

/-- Joins of one channel, with memory for every instant. -/
def joinStep (name : Bytes) (world : World) (call : JoinCall) : ThrottleResult × World :=
  world.throttleAdmit name call.nowMs call.defaultJoins call.defaultSecs true

def logOf (vs : List (Visit World JoinCall ThrottleResult)) : List Entry :=
  vs.map fun v => (v.input.nowMs.toInt, v.output)

theorem effectiveJoinThrottle_congr (hjoins : after.throttleJoins = channel.throttleJoins)
    (hsecs : after.throttleSecs = channel.throttleSecs) :
    after.effectiveJoinThrottle defaultJoins defaultSecs =
      channel.effectiveJoinThrottle defaultJoins defaultSecs := by
  rw [Channel.effectiveJoinThrottle, Channel.effectiveJoinThrottle, hjoins, hsecs]

theorem run_decided (calls : List JoinCall) (hchannel : world.getChannel name = some channel)
    (h : Recorded rate.windowMs log channel)
    (hrate : ∀ call ∈ calls, channel.effectiveJoinThrottle call.defaultJoins call.defaultSecs =
      some rate)
    (hpos : ∀ call ∈ calls, 0 < call.nowMs.toInt)
    (horder : calls.Pairwise (·.nowMs.toInt ≤ ·.nowMs.toInt))
    (hlast : ∀ call ∈ calls, ∀ e ∈ log, e.1 ≤ call.nowMs.toInt) :
    ∀ earlier e later, logOf (visits (joinStep name) world calls) = earlier ++ e :: later →
      Decided rate (log ++ earlier) e.1 e.2 ∧ ∀ u ∈ log ++ earlier, u.1 ≤ e.1 := by
  induction calls generalizing world channel log with
  | nil => exact fun earlier e later hsplit => by simp [logOf, visits] at hsplit
  | cons call calls ih =>
    obtain ⟨hfirst, hrate⟩ := forall_mem_cons.mp hrate
    obtain ⟨hnow, hpos⟩ := forall_mem_cons.mp hpos
    obtain ⟨hbefore, hlast⟩ := forall_mem_cons.mp hlast
    obtain ⟨hafter, horder⟩ := pairwise_cons.mp horder
    have hjudged := throttleAdmit_judged channel call.nowMs rate
    obtain ⟨hdecided, hnext⟩ := h.judged hnow hbefore hjudged
    have hstep :
        joinStep name world call = ((channel.throttleAdmit call.nowMs rate true).1, { world with
        channels :=
          HashMap.adjust (lowerString name)
          (fun _ => (channel.throttleAdmit call.nowMs rate true).2) world.channels }) := by
      simp only [joinStep, World.throttleAdmit, hchannel, hfirst]
    intro earlier e later hsplit
    rw [visits, hstep] at hsplit
    cases earlier with
    | nil =>
      cases hsplit
      rw [append_nil]
      exact ⟨hdecided, hbefore⟩
    | cons first earlier =>
      obtain ⟨rfl, hrest⟩ := cons.inj hsplit
      rw [append_cons]
      refine ih ?_ hnext ?_ hpos horder ?_ earlier e later hrest
      · rw [World.getChannel, HashMap.lookup_adjust, if_pos rfl]
        exact congrArg (Option.map _) hchannel
      · exact fun c hc =>
          (effectiveJoinThrottle_congr hjudged.same.1 hjudged.same.2).trans (hrate c hc)
      · intro c hc u hu
        rcases mem_append.mp hu with hu | hu
        · exact hlast c hc u hu
        · exact mem_singleton.mp hu ▸ hafter c hc

inductive ThrottleCall where
  | throttleAdmit (name : Bytes) (nowMs : Int64) (defaultJoins : UInt16) (defaultSecs : UInt32)
      (alloc : Bool)
  | setThrottle (name : Bytes) (joins : UInt16) (secs : UInt32)
  | clearThrottle (name : Bytes)

def World.throttleCall (world : World) : ThrottleCall → World
  | .throttleAdmit name nowMs defaultJoins defaultSecs alloc =>
    (world.throttleAdmit name nowMs defaultJoins defaultSecs alloc).2
  | .setThrottle name joins secs => (world.setThrottle name joins secs).2
  | .clearThrottle name => (world.clearThrottle name).2

/-- In a run of joins at one rate no window holds more admissions than the rate, a join is denied
when the window before it is full, alerts lie a window apart, and a denial is an alert when none
lies in the window before it. The peek agrees with the answer to a join after any calls. -/
theorem join_throttle :
    (∀ (world : World) (name : Bytes) (channel : Channel) (rate : EffectiveJoinThrottle)
      (calls : List JoinCall),
      world.getChannel name = some channel → channel.throttleTimes = [] →
      channel.throttleAlertMs = 0 →
      (∀ call ∈ calls, channel.effectiveJoinThrottle call.defaultJoins call.defaultSecs =
        some rate) →
      (∀ call ∈ calls, 0 < call.nowMs.toInt) → calls.Pairwise (·.nowMs.toInt ≤ ·.nowMs.toInt) →
      (∀ start, (logOf (visits (joinStep name) world calls)).countP (fun e =>
        decide (e.2 = .admitted ∧ start ≤ e.1 ∧ e.1 < start + rate.windowMs)) ≤ rate.joins.toNat) ∧
      ∀ earlier now result later, logOf (visits (joinStep name) world calls) =
        earlier ++ (now, result) :: later →
        (result ≠ .admitted ↔ recent rate.windowMs earlier now = rate.joins.toNat) ∧
        (result = .throttledAlert → Quiet rate.windowMs earlier now) ∧
        (result ≠ .admitted → Quiet rate.windowMs earlier now → result = .throttledAlert)) ∧
    ∀ (world : World) (calls : List ThrottleCall) (name : Bytes) (nowMs : Int64)
    (defaultJoins : UInt16) (defaultSecs : UInt32) (alloc : Bool),
      (calls.foldl World.throttleCall world).throttleWouldDeny name nowMs defaultJoins defaultSecs =
        true ↔
        ((calls.foldl World.throttleCall world).throttleAdmit name nowMs defaultJoins defaultSecs
          alloc).1 ≠
          .admitted := by
  refine ⟨?_, fun world calls => throttleWouldDeny_iff _⟩
  intro world name channel rate calls hchannel htimes halert hrate hpos horder
  have hempty : Recorded rate.windowMs [] channel :=
    ⟨fun _ _ => by rw [htimes]; rfl, nofun, fun hsome => absurd halert hsome⟩
  have hrun := run_decided calls hchannel hempty hrate hpos horder fun _ _ => nofun
  have hdecided : ∀ earlier e later, logOf (visits (joinStep name) world calls) =
      earlier ++ e :: later →
      Decided rate earlier e.1 e.2 :=
    fun earlier e later hsplit => (hrun earlier e later hsplit).1
  refine ⟨admitted_le hdecided, fun earlier now result later hsplit => ?_⟩
  obtain ⟨hthis, hlast⟩ := hrun earlier (now, result) later hsplit
  have hle : recent rate.windowMs earlier now ≤ rate.joins.toNat :=
    recent_le (fun first e rest hfirst =>
      hdecided first e (rest ++ (now, result) :: later) (by rw [hsplit, hfirst, append_assoc]; rfl))
      hlast
  refine ⟨hthis.denied.trans ⟨hle.antisymm, fun hfull => hfull.ge⟩,
    fun halert => (hthis.alert.mp halert).2, ?_⟩
  exact fun hdenied hquiet => hthis.alert.mpr ⟨hdenied, hquiet⟩

def raidChannel : Channel := (Channel.init [35, 106] 1 0).withThrottle 2 10

def raidWorld : World := { World.init with channels := AList.insert [35, 106] raidChannel ∅ }

def raidCalls : List JoinCall :=
  [⟨1000, 0, 0⟩, ⟨2000, 9, 9⟩, ⟨3000, 0, 0⟩, ⟨3500, 0, 0⟩, ⟨13000, 0, 0⟩]

/-- Two joins in ten seconds, asked for five times. -/
theorem join_throttle_raid :
    logOf (visits (joinStep [35, 106]) raidWorld raidCalls) = [(1000, .admitted), (2000, .admitted),
        (3000, .throttledAlert), (3500, .throttled), (13000, .admitted)] ∧
      ∀ start, (logOf (visits (joinStep [35, 106]) raidWorld raidCalls)).countP (fun e =>
        decide (e.2 = .admitted ∧ start ≤ e.1 ∧ e.1 < start + 10000)) ≤ 2 :=
  ⟨by decide,
    (join_throttle.1 raidWorld [35, 106] raidChannel ⟨2, 10000⟩ raidCalls rfl rfl rfl (by decide)
    (by decide) (by decide)).1⟩

end OnyxServer.ChatWorld
