import B0s.Library.Runs
import B0s.Library.WordBits
import B0s.Proof.Multitasking.SignalRun

/-
This file settles in which runs the signals of a process are delivered as they were sent.
-/

namespace B0s

/-- The state of a process with the signals that were sent to it unmasked and not delivered since. -/
structure Signalled where
  proc : Process
  waiting : Finset Nat

/-- Signals are sent and delivered in any order. -/
inductive SignalCall where
  | send (signum : Nat)
  | deliver
  deriving DecidableEq

section
variable (undefined : Nat → Nat)

/-- The signal that the search of `signal_deliver` selects. -/
def signalSelected (proc : Process) : Nat :=
  signalDeliverSearch undefined proc.pendingSignals processNsig 0

def SignalCall.run : SignalCall → Signalled → Signalled
  | .send signum, state =>
      { proc := signalSend undefined signum state.proc
        waiting :=
          if signum < processNsig ∧ state.proc.maskedSignals.testBit signum = false then
            insert signum state.waiting
          else state.waiting }
  | .deliver, state =>
      { proc := signalDeliver undefined state.proc
        waiting :=
          if state.proc.pendingSignals = 0 then state.waiting
          else state.waiting.erase (signalSelected undefined state.proc) }

def SignalCall.Steps (call : SignalCall) (state state' : Signalled) : Prop := call.run undefined state = state'

/-- The pending set holds the waiting signals. -/
def Signalled.Kept (state : Signalled) : Prop :=
  ∀ signum, signum ∈ state.waiting ↔ state.proc.pendingSignals.testBit signum = true

/-- Sending sets the bit of an unmasked signal alone and changes nothing for a masked one. -/
def SendsExactly (signum : Nat) (proc : Process) : Prop :=
  signalSend undefined signum proc =
    if proc.maskedSignals.testBit signum = true then proc
    else { proc with pendingSignals := proc.pendingSignals ||| 2 ^ signum }

/-- Delivery selects the lowest pending signal and clears its bit alone. -/
structure DeliversExactly (proc : Process) : Prop where
  lowest : LowestPending proc.pendingSignals (signalSelected undefined proc)
  clears : ∀ signum, (signalDeliver undefined proc).pendingSignals.testBit signum =
    (proc.pendingSignals.testBit signum && decide (signum ≠ signalSelected undefined proc))

/-- The call has its exact effect on the sets, a delivered signal was waiting, and afterwards the waiting signals
are the pending ones. -/
structure SignalCall.Exact (call : SignalCall) (state : Signalled) : Prop where
  sends : ∀ signum < processNsig, call = .send signum → SendsExactly undefined signum state.proc
  delivers : call = .deliver → state.proc.pendingSignals ≠ 0 →
    DeliversExactly undefined state.proc ∧ signalSelected undefined state.proc ∈ state.waiting
  keeps : (call.run undefined state).Kept

end

/-- A signal below 31 has its own bit. The shift by 31 sets all bits from 31 on, so its effect has to be hidden by
masked or pending signals. From 32 on the shift is undefined, so each unmasked signal has to be pending already. -/
def SendAdmits (signum pending masked : Nat) : Prop :=
  signum < 31 ∨ processNsig ≤ signum ∨
    (signum = 31 ∧ (masked.testBit 31 = true ∨
      (2 ^ 31 ≤ masked ∧ pending.testBit 31 = true) ∨
      (masked < 2 ^ 31 ∧ ∀ bit < 64, 32 ≤ bit → pending.testBit bit = true))) ∨
    (32 ≤ signum ∧ ∀ bit < 64, masked.testBit bit = false → pending.testBit bit = true)

/-- Some signal below 31 is pending, or 31 is the only pending one. -/
def DeliverAdmits (pending : Nat) : Prop := pending = 0 ∨ pending % 2 ^ 31 ≠ 0 ∨ pending = 2 ^ 31

def SignalCall.Admits : SignalCall → Signalled → Prop
  | .send signum, state => SendAdmits signum state.proc.pendingSignals state.proc.maskedSignals
  | .deliver, state => DeliverAdmits state.proc.pendingSignals

section
variable {undefined : Nat → Nat} {proc : Process} {signum pending masked : Nat}

theorem signalSend_eq_iff (inside : signum < processNsig) :
    SendsExactly undefined signum proc ↔
      (if signalIsSet undefined proc.maskedSignals signum then proc.pendingSignals
        else proc.pendingSignals ||| intShift undefined signum) =
      if proc.maskedSignals.testBit signum = true then proc.pendingSignals
        else proc.pendingSignals ||| 2 ^ signum := by
  rw [SendsExactly, signalSend, if_neg (Nat.not_le.mpr inside), signalSet]
  constructor
  · intro same
    have pendings := congrArg Process.pendingSignals same
    rw [apply_ite Process.pendingSignals, apply_ite Process.pendingSignals] at pendings
    exact pendings
  · intro pendings
    have record : ∀ (condition : Prop) [Decidable condition] (value : Nat),
        (if condition then proc else { proc with pendingSignals := value }) =
          { proc with pendingSignals := if condition then proc.pendingSignals else value } := by
      intro condition _ value
      split_ifs <;> rfl
    rw [record, record, pendings]

/-- The mask of the shift by 31. -/
theorem testBit_high (bit : Nat) : (2 ^ 64 - 2 ^ 31 : Nat).testBit bit = (decide (bit < 64) && decide (31 ≤ bit)) := by
  have form : (2 ^ 64 - 2 ^ 31 : Nat) = 2 ^ 64 - ((2 ^ 31 - 1) + 1) := by norm_num
  rw [form, Nat.testBit_two_pow_sub_succ (by norm_num), Nat.testBit_two_pow_sub_one]
  by_cases low : bit < 31
  · simp [low]
  · simp [low, Nat.le_of_not_lt low]

theorem or_eq_self_iff {bits : Nat} :
    pending ||| bits = pending ↔ ∀ bit, bits.testBit bit = true → pending.testBit bit = true := by
  constructor
  · intro same bit set
    rw [← same, Nat.testBit_or, set, Bool.or_true]
  · intro subset
    apply Nat.eq_of_testBit_eq
    intro bit
    rw [Nat.testBit_or]
    cases set : bits.testBit bit with
    | false => rw [Bool.or_false]
    | true => rw [subset bit set, Bool.or_true]

theorem or_two_pow_eq_self (set : pending.testBit signum = true) : pending ||| 2 ^ signum = pending := by
  apply or_eq_self_iff.mpr
  intro bit same
  rw [Nat.testBit_two_pow, decide_eq_true_eq] at same
  rw [← same]
  exact set

/-- The test of the macro finds a masked signal from 31 on. -/
theorem signalIsSet_high (word : masked < 2 ^ 64) : signalIsSet undefined masked 31 ↔ 2 ^ 31 ≤ masked := by
  have shift : intShift undefined 31 = 2 ^ 64 - 2 ^ 31 := by simp [intShift]
  rw [signalIsSet, shift, WordBits.and_high_mask (by norm_num) word]
  omega

theorem sendsExactly_low (low : signum < 31) : SendsExactly undefined signum proc := by
  rw [signalSend_eq_iff (lt_of_lt_of_le low (by decide)), intShift, if_pos low]
  exact if_congr (signalIsSet_iff low) rfl rfl

theorem sendsExactly_high_iff (maskedWord : proc.maskedSignals < 2 ^ 64) :
    SendsExactly undefined 31 proc ↔ proc.maskedSignals.testBit 31 = true ∨
      (2 ^ 31 ≤ proc.maskedSignals ∧ proc.pendingSignals.testBit 31 = true) ∨
      (proc.maskedSignals < 2 ^ 31 ∧ ∀ bit < 64, 32 ≤ bit → proc.pendingSignals.testBit bit = true) := by
  have shift : intShift undefined 31 = 2 ^ 64 - 2 ^ 31 := by simp [intShift]
  have refused := @signalIsSet_high undefined proc.maskedSignals maskedWord
  rw [signalSend_eq_iff (by decide), shift]
  by_cases masked : proc.maskedSignals.testBit 31 = true
  · have above : 2 ^ 31 ≤ proc.maskedSignals := Nat.ge_two_pow_of_testBit masked
    rw [if_pos (refused.mpr above), if_pos masked]
    exact iff_of_true rfl (Or.inl masked)
  · rw [if_neg masked]
    by_cases above : 2 ^ 31 ≤ proc.maskedSignals
    · rw [if_pos (refused.mpr above)]
      constructor
      · intro same
        right
        left
        refine ⟨above, ?_⟩
        rw [same, Nat.testBit_or, Nat.testBit_two_pow_self, Bool.or_true]
      · rintro (set | ⟨-, set⟩ | ⟨below, -⟩)
        · exact absurd set masked
        · exact (or_two_pow_eq_self set).symm
        · omega
    · rw [if_neg fun now => above (refused.mp now)]
      constructor
      · intro same
        right
        right
        refine ⟨Nat.lt_of_not_le above, ?_⟩
        intro bit inside upper
        have bits := congrArg (fun value => value.testBit bit) same
        simp only [Nat.testBit_or, testBit_high, Nat.testBit_two_pow] at bits
        have different : ¬31 = bit := by omega
        have between : 31 ≤ bit := by omega
        simpa [inside, between, different] using bits.symm
      · rintro (set | ⟨reaches, -⟩ | ⟨-, all⟩)
        · exact absurd set masked
        · exact absurd reaches above
        · apply Nat.eq_of_testBit_eq
          intro bit
          simp only [Nat.testBit_or, testBit_high, Nat.testBit_two_pow]
          by_cases same : 31 = bit
          · subst same
            simp
          · by_cases inside : bit < 64 ∧ 32 ≤ bit
            · simp [all bit inside.1 inside.2]
            · have low : ¬(bit < 64 ∧ 31 ≤ bit) := by omega
              simp [same, low]

/-- Where the shift is undefined, a send is exact for every value exactly when each unmasked signal is pending. -/
theorem sendsExactly_undefined_iff (inside : signum < processNsig) (beyond : 32 ≤ signum) :
    (∀ undefined, SendsExactly undefined signum proc) ↔
      ∀ bit < 64, proc.maskedSignals.testBit bit = false → proc.pendingSignals.testBit bit = true := by
  have shift : ∀ undefined, intShift undefined signum = u64 (undefined signum) := by
    intro undefined
    rw [intShift, if_neg (by omega), if_neg (by omega)]
  constructor
  · intro exactly bit bound unmasked
    -- the shift may yield this bit alone
    have one := (signalSend_eq_iff inside).mp (exactly fun _ => 2 ^ bit)
    have value : u64 (2 ^ bit) = 2 ^ bit := Nat.mod_eq_of_lt (Nat.pow_lt_pow_right (by norm_num) bound)
    have clear : ¬signalIsSet (fun _ => 2 ^ bit) proc.maskedSignals signum := by
      rw [signalIsSet, shift, value, Nat.and_two_pow, unmasked]
      simp
    rw [if_neg clear, shift, value] at one
    have bits := congrArg (fun value => value.testBit bit) one
    simp only [Nat.testBit_or, Nat.testBit_two_pow_self, Bool.or_true] at bits
    by_cases same : signum = bit
    · -- or it may yield no bit
      subst same
      have none := (signalSend_eq_iff inside).mp (exactly fun _ => 0)
      have never : ¬signalIsSet (fun _ => 0) proc.maskedSignals signum := by
        rw [signalIsSet, shift]
        simp [u64]
      rw [if_neg never, shift, unmasked, if_neg Bool.false_ne_true] at none
      have set := congrArg (fun value => value.testBit signum) none
      simpa [u64] using set
    · split_ifs at bits
      · exact bits.symm
      · simpa [Nat.testBit_or, Nat.testBit_two_pow, same] using bits.symm
  · intro all undefined
    rw [signalSend_eq_iff inside]
    have wanted : (if proc.maskedSignals.testBit signum = true then proc.pendingSignals
        else proc.pendingSignals ||| 2 ^ signum) = proc.pendingSignals := by
      split_ifs with masked
      · rfl
      · exact or_two_pow_eq_self (all signum inside (by simpa using masked))
    rw [wanted]
    split_ifs with refused
    · rfl
    · apply or_eq_self_iff.mpr
      intro bit set
      rw [shift] at set
      have bound : bit < 64 := by
        by_contra outside
        have small : u64 (undefined signum) < 2 ^ bit :=
          lt_of_lt_of_le (Nat.mod_lt _ (by norm_num)) (Nat.pow_le_pow_right (by norm_num) (by omega))
        rw [Nat.testBit_lt_two_pow small] at set
        cases set
      apply all bit bound
      rw [signalIsSet, not_not, shift] at refused
      have none := congrArg (fun value => value.testBit bit) refused
      simpa [set] using none

/-- For every value of the undefined shift, a send is exact exactly when it is admitted. -/
theorem sendsExactly_iff (maskedWord : proc.maskedSignals < 2 ^ 64) :
    (∀ undefined, signum < processNsig → SendsExactly undefined signum proc) ↔
      SendAdmits signum proc.pendingSignals proc.maskedSignals := by
  by_cases inside : signum < processNsig
  · rcases lt_trichotomy signum 31 with low | rfl | beyond
    · exact iff_of_true (fun undefined _ => sendsExactly_low low) (Or.inl low)
    · have high := fun undefined => @sendsExactly_high_iff undefined proc maskedWord
      constructor
      · intro exactly
        exact Or.inr (Or.inr (Or.inl ⟨rfl, (high fun _ => 0).mp (exactly (fun _ => 0) inside)⟩))
      · rintro (low | outside | ⟨-, admitted⟩ | ⟨beyond, -⟩) undefined -
        · omega
        · exact absurd inside (Nat.not_lt.mpr outside)
        · exact (high undefined).mpr admitted
        · omega
    · have unknown := @sendsExactly_undefined_iff proc signum inside beyond
      constructor
      · intro exactly
        exact Or.inr (Or.inr (Or.inr ⟨beyond, unknown.mp fun undefined => exactly undefined inside⟩))
      · rintro (low | outside | ⟨same, -⟩ | ⟨-, admitted⟩) undefined -
        · omega
        · exact absurd inside (Nat.not_lt.mpr outside)
        · omega
        · exact unknown.mpr admitted undefined
  · exact iff_of_true (fun _ now => absurd now inside) (Or.inr (Or.inl (Nat.le_of_not_lt inside)))

/-- The search ends at 31 when no signal below it is pending. -/
theorem signalDeliverSearch_high {count start : Nat} (word : pending < 2 ^ 64) (high : 2 ^ 31 ≤ pending)
    (clear : ∀ lower < 31, pending.testBit lower = false) (before : start ≤ 31) (enough : 31 < start + count) :
    signalDeliverSearch undefined pending count start = 31 := by
  induction count generalizing start with
  | zero => omega
  | succ count ih =>
      rw [signalDeliverSearch]
      by_cases here : start = 31
      · subst here
        rw [if_pos ((signalIsSet_high word).mpr high)]
      · have low : start < 31 := by omega
        have skipped : ¬signalIsSet undefined pending start := by
          rw [signalIsSet_iff low, clear start low]
          exact Bool.false_ne_true
        rw [if_neg skipped]
        exact ih (by omega) (by omega)

/-- The selected signal is the lowest one below 31, or 31, whatever the undefined shifts are. -/
theorem signalSelected_spec (word : proc.pendingSignals < 2 ^ 64) (nonzero : proc.pendingSignals ≠ 0) :
    (∃ signum < 31, LowestPending proc.pendingSignals signum ∧
        ∀ undefined, signalSelected undefined proc = signum) ∨
      ((∀ lower < 31, proc.pendingSignals.testBit lower = false) ∧ 2 ^ 31 ≤ proc.pendingSignals ∧
        ∀ undefined, signalSelected undefined proc = 31) := by
  by_cases low : ∃ signum, signum < 31 ∧ proc.pendingSignals.testBit signum = true
  · left
    have first := Nat.find_spec low
    have lowest : LowestPending proc.pendingSignals (Nat.find low) := by
      refine ⟨first.2, ?_⟩
      intro lower before
      have not := Nat.find_min low before
      simpa [lt_trans before first.1] using not
    exact ⟨Nat.find low, first.1, lowest, fun undefined => (signalDeliverSearch_lowest first.1).mpr lowest⟩
  · right
    have clear : ∀ lower < 31, proc.pendingSignals.testBit lower = false := by
      intro lower inside
      by_contra set
      exact low ⟨lower, inside, by simpa using set⟩
    have high : 2 ^ 31 ≤ proc.pendingSignals := by
      by_contra below
      apply nonzero
      apply Nat.eq_of_testBit_eq
      intro bit
      rw [Nat.zero_testBit]
      by_cases inside : bit < 31
      · exact clear bit inside
      · exact Nat.testBit_lt_two_pow
          (lt_of_lt_of_le (Nat.lt_of_not_le below) (Nat.pow_le_pow_right (by norm_num) (by omega)))
    exact ⟨clear, high, fun undefined => signalDeliverSearch_high word high clear (by omega) (by decide)⟩

theorem signalDeliver_pending (nonzero : proc.pendingSignals ≠ 0) :
    (signalDeliver undefined proc).pendingSignals =
      signalUnset undefined proc.pendingSignals (signalSelected undefined proc) := by
  rw [signalDeliver, if_neg nonzero, signalSelected]
  dsimp only
  split_ifs <;> rfl

theorem signalDeliver_masked : (signalDeliver undefined proc).maskedSignals = proc.maskedSignals := by
  rw [signalDeliver]
  dsimp only
  split_ifs <;> rfl

/-- No shift up to 31 is undefined. -/
theorem intShift_defined {undefined' : Nat → Nat} (defined : signum ≤ 31) :
    intShift undefined signum = intShift undefined' signum := by
  unfold intShift
  split_ifs
  · rfl
  · rfl
  · omega

theorem testBit_signalUnset_low (low : signum < 31) (word : pending < 2 ^ 64) (bit : Nat) :
    (signalUnset undefined pending signum).testBit bit = (pending.testBit bit && decide (bit ≠ signum)) := by
  have small : 2 ^ signum < 2 ^ 64 := Nat.pow_lt_pow_right (by norm_num) (by omega)
  have form : notU64 (2 ^ signum) = 2 ^ 64 - (2 ^ signum + 1) := by
    unfold notU64
    omega
  rw [signalUnset, intShift, if_pos low, form, Nat.testBit_and, Nat.testBit_two_pow_sub_succ small, Nat.testBit_two_pow]
  by_cases inside : bit < 64
  · simp [inside, eq_comm]
  · have outside : pending.testBit bit = false :=
      Nat.testBit_lt_two_pow (lt_of_lt_of_le word (Nat.pow_le_pow_right (by norm_num) (by omega)))
    simp [outside]

/-- Clearing 31 clears all signals from 31 on. -/
theorem testBit_signalUnset_high (bit : Nat) :
    (signalUnset undefined pending 31).testBit bit = (pending.testBit bit && decide (bit < 31)) := by
  have form : notU64 (2 ^ 64 - 2 ^ 31) = 2 ^ 31 - 1 := by
    unfold notU64
    norm_num
  have shift : intShift undefined 31 = 2 ^ 64 - 2 ^ 31 := by simp [intShift]
  rw [signalUnset, shift, form, Nat.testBit_and, Nat.testBit_two_pow_sub_one]

/-- A delivery is exact exactly when it is admitted. -/
theorem deliversExactly_iff (word : proc.pendingSignals < 2 ^ 64) (nonzero : proc.pendingSignals ≠ 0) :
    DeliversExactly undefined proc ↔ DeliverAdmits proc.pendingSignals := by
  have pendings := @signalDeliver_pending undefined proc nonzero
  rcases signalSelected_spec word nonzero with ⟨signum, low, lowest, selected⟩ | ⟨clear, high, selected⟩
  · refine iff_of_true ⟨?_, ?_⟩ (Or.inr (Or.inl ?_))
    · rw [selected]
      exact lowest
    · intro bit
      rw [pendings, selected, testBit_signalUnset_low low word]
    · intro none
      have set := Nat.testBit_mod_two_pow proc.pendingSignals 31 signum
      rw [none, Nat.zero_testBit, lowest.1] at set
      simp [low] at set
  · have below : proc.pendingSignals % 2 ^ 31 = 0 := by
      apply Nat.eq_of_testBit_eq
      intro bit
      rw [Nat.testBit_mod_two_pow, Nat.zero_testBit]
      by_cases inside : bit < 31
      · rw [clear bit inside, Bool.and_false]
      · simp [inside]
    constructor
    · intro delivers
      right
      right
      have set := delivers.lowest.1
      rw [selected] at set
      apply Nat.eq_of_testBit_eq
      intro bit
      rw [Nat.testBit_two_pow]
      by_cases same : 31 = bit
      · subst same
        simpa using set
      · have cleared := delivers.clears bit
        rw [pendings, selected, testBit_signalUnset_high] at cleared
        by_cases inside : bit < 31
        · simp [clear bit inside, same]
        · have other : bit ≠ 31 := fun equal => same equal.symm
          simpa [inside, same, other] using cleared
    · rintro (none | low | only)
      · exact absurd none nonzero
      · exact absurd below low
      · refine ⟨?_, ?_⟩
        · rw [selected]
          refine ⟨?_, clear⟩
          rw [only]
          exact Nat.testBit_two_pow_self
        · intro bit
          rw [pendings, selected, testBit_signalUnset_high, only, Nat.testBit_two_pow]
          by_cases same : 31 = bit
          · subst same
            simp
          · simp [same]

/-- A delivery does not depend on the undefined shifts. -/
theorem signalDeliver_defined (undefined' : Nat → Nat) (word : proc.pendingSignals < 2 ^ 64) :
    signalDeliver undefined proc = signalDeliver undefined' proc := by
  by_cases none : proc.pendingSignals = 0
  · rw [signalDeliver, signalDeliver, if_pos none, if_pos none]
  · have same : ∃ signum ≤ 31, ∀ undefined, signalSelected undefined proc = signum := by
      rcases signalSelected_spec word none with ⟨signum, low, -, selected⟩ | ⟨-, -, selected⟩
      · exact ⟨signum, le_of_lt low, selected⟩
      · exact ⟨31, le_rfl, selected⟩
    obtain ⟨signum, defined, selected⟩ := same
    have first := selected undefined
    have second := selected undefined'
    rw [signalSelected] at first second
    have unset : signalUnset undefined proc.pendingSignals signum = signalUnset undefined' proc.pendingSignals signum := by
      rw [signalUnset, signalUnset, @intShift_defined undefined _ undefined' defined]
    rw [signalDeliver, signalDeliver, if_neg none, if_neg none, first, second]
    dsimp only
    rw [unset]

end

/-- The sets of the process are words, and the pending set holds the waiting signals. -/
structure Signalled.Faithful (state : Signalled) : Prop where
  pendingWord : state.proc.pendingSignals < 2 ^ 64
  maskedWord : state.proc.maskedSignals < 2 ^ 64
  kept : state.Kept

section
variable {undefined : Nat → Nat} {state : Signalled} {signum : Nat}

/-- An exact send makes an unmasked signal wait. -/
theorem SendsExactly.faithful (faithful : state.Faithful)
    (exactly : signum < processNsig → SendsExactly undefined signum state.proc) :
    ((SignalCall.send signum).run undefined state).Faithful := by
  by_cases inside : signum < processNsig
  · have sends := exactly inside
    rw [SendsExactly] at sends
    cases masked : state.proc.maskedSignals.testBit signum with
    | true =>
        rw [if_pos masked] at sends
        simp only [SignalCall.run, sends, masked, Bool.true_eq_false, and_false, if_false]
        exact faithful
    | false =>
        rw [masked, if_neg Bool.false_ne_true] at sends
        simp only [SignalCall.run, sends, masked, inside, and_self, if_true]
        refine ⟨?_, faithful.maskedWord, ?_⟩
        · exact Nat.or_lt_two_pow faithful.pendingWord (Nat.pow_lt_pow_right (by norm_num) inside)
        · intro other
          have kept := faithful.kept other
          simp only [Finset.mem_insert, Nat.testBit_or, Nat.testBit_two_pow, Bool.or_eq_true, decide_eq_true_eq]
          rw [kept, or_comm]
          exact or_congr Iff.rfl eq_comm
  · have refused : signalSend undefined signum state.proc = state.proc := by
      rw [signalSend, if_pos (Nat.le_of_not_lt inside)]
    simp only [SignalCall.run, refused, inside, false_and, if_false]
    exact faithful

/-- An exact delivery ends the wait of the delivered signal. -/
theorem DeliversExactly.faithful (faithful : state.Faithful)
    (exactly : state.proc.pendingSignals ≠ 0 → DeliversExactly undefined state.proc) :
    (SignalCall.deliver.run undefined state).Faithful := by
  by_cases none : state.proc.pendingSignals = 0
  · have unchanged : signalDeliver undefined state.proc = state.proc := by rw [signalDeliver, if_pos none]
    simp only [SignalCall.run, unchanged, if_pos none]
    exact faithful
  · simp only [SignalCall.run, if_neg none]
    refine ⟨?_, ?_, ?_⟩
    · rw [signalDeliver_pending none]
      exact lt_of_le_of_lt Nat.and_le_left faithful.pendingWord
    · rw [signalDeliver_masked]
      exact faithful.maskedWord
    · intro signum
      rw [Finset.mem_erase, (exactly none).clears, faithful.kept]
      simp [and_comm]

/-- For every value of the undefined shifts, a call is exact exactly when it is admitted. -/
theorem SignalCall.exact_iff (faithful : state.Faithful) (call : SignalCall) :
    (∀ undefined, call.Exact undefined state) ↔ call.Admits state := by
  cases call with
  | send signum =>
      have sends := @sendsExactly_iff state.proc signum faithful.maskedWord
      constructor
      · intro exactly
        exact sends.mp fun undefined inside => (exactly undefined).sends signum inside rfl
      · intro admits undefined
        have exactly := sends.mpr admits undefined
        refine ⟨?_, ?_, (SendsExactly.faithful faithful exactly).kept⟩
        · rintro other inside ⟨⟩
          exact exactly inside
        · rintro ⟨⟩
  | deliver =>
      have delivers := fun undefined => @deliversExactly_iff undefined state.proc faithful.pendingWord
      constructor
      · intro exactly
        by_cases none : state.proc.pendingSignals = 0
        · exact Or.inl none
        · exact (delivers (fun _ => 0) none).mp ((exactly fun _ => 0).delivers rfl none).1
      · intro admits undefined
        have exactly : state.proc.pendingSignals ≠ 0 → DeliversExactly undefined state.proc :=
          fun nonzero => (delivers undefined nonzero).mpr admits
        refine ⟨?_, ?_, (DeliversExactly.faithful faithful exactly).kept⟩
        · rintro other inside ⟨⟩
        · intro _ nonzero
          have now := exactly nonzero
          exact ⟨now, (faithful.kept _).mpr now.lowest.1⟩

theorem SignalCall.Exact.faithful {call : SignalCall} (exactly : call.Exact undefined state)
    (faithful : state.Faithful) : (call.run undefined state).Faithful := by
  cases call with
  | send signum => exact SendsExactly.faithful faithful fun inside => exactly.sends signum inside rfl
  | deliver => exact DeliversExactly.faithful faithful fun nonzero => (exactly.delivers rfl nonzero).1

/-- An exact call ends in one state, whatever the undefined shifts are. -/
theorem SignalCall.run_defined {call : SignalCall} (faithful : state.Faithful)
    (exactly : ∀ undefined, call.Exact undefined state) (undefined' : Nat → Nat) :
    call.run undefined state = call.run undefined' state := by
  cases call with
  | send signum =>
      have same : signalSend undefined signum state.proc = signalSend undefined' signum state.proc := by
        by_cases inside : signum < processNsig
        · exact ((exactly undefined).sends signum inside rfl).trans ((exactly undefined').sends signum inside rfl).symm
        · rw [signalSend, signalSend, if_pos (Nat.le_of_not_lt inside), if_pos (Nat.le_of_not_lt inside)]
      rw [SignalCall.run, SignalCall.run, same]
  | deliver =>
      rw [SignalCall.run, SignalCall.run, @signalDeliver_defined undefined _ undefined' faithful.pendingWord]
      by_cases none : state.proc.pendingSignals = 0
      · rw [if_pos none, if_pos none]
      · rcases signalSelected_spec faithful.pendingWord none with ⟨_, -, -, selected⟩ | ⟨-, -, selected⟩
        · rw [selected undefined, selected undefined']
        · rw [selected undefined, selected undefined']

end

/-- In every run of sends and deliveries, for every value of the undefined shifts, all calls are exact and the waiting
signals are the pending ones, exactly when all calls are admitted. -/
theorem signalRun_exact_iff (calls : List SignalCall) (state : Signalled) (faithful : state.Faithful) :
    (∀ undefined, Runs.Along (SignalCall.Steps undefined) (SignalCall.Exact undefined) calls state) ↔
      ∀ undefined, Runs.Along (SignalCall.Steps undefined) SignalCall.Admits calls state := by
  induction calls generalizing state with
  | nil => exact iff_of_true (fun _ => trivial) (fun _ => trivial)
  | cons call calls ih =>
      have agree := call.exact_iff faithful
      -- the rest of the run starts in one state for all values of the shifts
      have rest : (∀ undefined, call.Exact undefined state) → ((∀ undefined, Runs.Along (SignalCall.Steps undefined)
            (SignalCall.Exact undefined) calls (call.run undefined state)) ↔
          ∀ undefined, Runs.Along (SignalCall.Steps undefined) SignalCall.Admits calls (call.run undefined state)) := by
        intro exactly
        have same := fun undefined => @SignalCall.run_defined undefined _ _ faithful exactly fun _ => 0
        simp only [same]
        exact ih _ ((exactly fun _ => 0).faithful faithful)
      have first := fun undefined => @Runs.along_cons _ _ (SignalCall.Steps undefined) (SignalCall.Exact undefined)
        call calls state (call.run undefined state) fun _ => Iff.rfl
      have second := fun undefined => @Runs.along_cons _ _ (SignalCall.Steps undefined) SignalCall.Admits
        call calls state (call.run undefined state) fun _ => Iff.rfl
      simp only [first, second, forall_and]
      constructor
      · rintro ⟨exactly, later⟩
        exact ⟨fun _ => agree.mp exactly, (rest exactly).mp later⟩
      · rintro ⟨admits, later⟩
        have exactly := agree.mpr (admits fun _ => 0)
        exact ⟨exactly, (rest exactly).mpr later⟩

/-- The signal 30 is sent to an idle process and delivered. -/
theorem signalRun_exact_iff_low :
    Runs.Along (SignalCall.Steps fun _ => 0) (SignalCall.Exact fun _ => 0) [.send 30, .deliver]
      ⟨idleProcess .ready, ∅⟩ := by
  refine (signalRun_exact_iff [.send 30, .deliver] ⟨idleProcess .ready, ∅⟩ ⟨by decide, by decide, ?_⟩).mpr ?_ fun _ => 0
  · intro signum
    simp [idleProcess]
  · intro undefined
    refine ⟨Or.inl (by decide), ?_⟩
    rintro state' rfl
    refine ⟨Or.inr (Or.inl ?_), fun _ _ => trivial⟩
    simp [SignalCall.run, signalSend, signalIsSet, signalSet, intShift, idleProcess, processNsig]

/-- Sending the unmasked signal 31 to an idle process makes all signals from 31 on pending, and one delivery clears
them all. -/
theorem signalSend_sets_range :
    (signalSend (fun _ => 0) 31 (idleProcess .ready)).pendingSignals = 0xffffffff80000000 ∧
      (signalDeliver (fun _ => 0) (signalSend (fun _ => 0) 31 (idleProcess .ready))).pendingSignals = 0 ∧
      ¬∀ undefined, Runs.Along (SignalCall.Steps undefined) (SignalCall.Exact undefined) [.send 31]
        ⟨idleProcess .ready, ∅⟩ := by
  refine ⟨by decide +kernel, by decide +kernel, ?_⟩
  intro along
  have exactly := (along fun _ => 0).1.sends 31 (by decide) rfl
  have pendings := congrArg Process.pendingSignals exactly
  revert pendings
  decide +kernel

end B0s
