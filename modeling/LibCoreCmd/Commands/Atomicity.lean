import LibCoreCmd.Commands.AddAccount
import Mathlib.Data.List.Induction

/-! Histories of runs that add accounts, on a pool that is empty at first: whether a failed run
leaves no trace, and every wallet has its account. -/
namespace LibCoreCmd.Commands
open Program

/-- A run of the command: its arguments, and the answers of the library. -/
structure Run where
  answers : Answers
  explorerUrl : String
  options : List String

def Run.on (lib : Library) (run : Run) (pool : List Wallet) : Except Exception Unit × World :=
  addAccount lib run.answers run.explorerUrl run.options { pool }

def poolAfter (lib : Library) (runs : List Run) : List Wallet :=
  runs.foldl (fun pool run => (run.on lib pool).2.pool) []

/-- If the run ends in an exception, it leaves the pool as it was. -/
def Atomic (lib : Library) (run : Run) (pool : List Wallet) : Prop :=
  (run.on lib pool).1.isOk = false → (run.on lib pool).2.pool = pool

/-- Every wallet has account 0. -/
def Usable (pool : List Wallet) : Prop := ∀ wallet ∈ pool, (wallet.account 0).isSome

/-- The run comes to create a wallet and can create it, but not its account. -/
def Orphans (lib : Library) (run : Run) (pool : List Wallet) : Prop :=
  (∃ params, Creates lib run.answers run.options params pool) ∧
    run.answers.createWallet = none ∧ run.answers.newAccount.isOk = false

variable {lib : Library} {run : Run} {pool : List Wallet}

theorem poolAfter_concat (runs : List Run) :
    poolAfter lib (runs ++ [run]) = (run.on lib (poolAfter lib runs)).2.pool := by
  simp [poolAfter]

/-- What one run can do to the pool. -/
theorem on_cases (lib : Library) (run : Run) (pool : List Wallet) :
    (run.on lib pool).2.pool = pool ∧ ¬ Orphans lib run pool ∨
    (∃ wallet, (wallet.account 0).isSome ∧ (run.on lib pool).2.pool = pool ++ [wallet]) ∧
      (run.on lib pool).1.isOk = true ∧ ¬ Orphans lib run pool ∨
    (∃ wallet, (run.on lib pool).2.pool = pool ++ [wallet]) ∧
      (run.on lib pool).1.isOk = false ∧ Orphans lib run pool := by
  by_cases hcr : ∃ params, Creates lib run.answers run.options params pool
  · obtain ⟨params, h⟩ := hcr
    replace h : Creates lib run.answers run.options params ({ pool } : World).pool := h
    cases hc : run.answers.createWallet with
    | some error =>
      exact Or.inl ⟨(addAccount_createWallet_error h hc).2, by simp [Orphans, hc]⟩
    | none =>
      cases ha : run.answers.newAccount with
      | ok restoreKey =>
        obtain ⟨hr, hpool⟩ := addAccount_newAccount_ok h hc ha
        exact Or.inr (Or.inl ⟨⟨_, rfl, hpool⟩, by rw [Run.on, hr]; rfl,
          by simp [Orphans, ha, Except.isOk, Except.toBool]⟩)
      | error error =>
        obtain ⟨hr, hpool⟩ := addAccount_newAccount_error h hc ha
        exact Or.inr (Or.inr ⟨⟨_, hpool⟩, by rw [Run.on, hr]; rfl, ⟨params, h⟩, hc,
          by rw [ha]; rfl⟩)
  · refine Or.inl ⟨(addAccount_of_not_creates fun params h => hcr ⟨params, h⟩).1, fun h => hcr h.1⟩

theorem atomic_iff : Atomic lib run pool ↔ ¬ Orphans lib run pool := by
  obtain ⟨hp, ho⟩ | ⟨-, hok, ho⟩ | ⟨⟨wallet, hp⟩, hfail, ho⟩ := on_cases lib run pool
  · exact ⟨fun _ => ho, fun _ _ => hp⟩
  · exact ⟨fun _ => ho, fun _ hfail => by rw [hok] at hfail; cases hfail⟩
  · refine ⟨fun hat => ?_, fun h => (h ho).elim⟩
    have hsame := hat hfail
    rw [hp] at hsame
    simp at hsame

theorem usable_on (hu : Usable pool) (ho : ¬ Orphans lib run pool) :
    Usable (run.on lib pool).2.pool := by
  obtain ⟨hp, -⟩ | ⟨⟨wallet, hw, hp⟩, -, -⟩ | ⟨-, -, h⟩ := on_cases lib run pool
  · rw [hp]
    exact hu
  · rw [hp]
    intro v hv
    rcases List.mem_append.mp hv with hv | hv
    · exact hu v hv
    · exact List.mem_singleton.mp hv ▸ hw
  · exact (ho h).elim

theorem usable_poolAfter (runs : List Run)
    (ho : ∀ past run rest, runs = past ++ run :: rest → ¬ Orphans lib run (poolAfter lib past)) :
    Usable (poolAfter lib runs) := by
  induction runs using List.reverseRecOn with
  | nil => simp [poolAfter, Usable]
  | append_singleton runs run ih =>
    rw [poolAfter_concat]
    refine usable_on (ih fun past r rest h => ho past r (rest ++ [run]) ?_) (ho runs run [] rfl)
    simp [h]

/-- Over a history of runs, each that fails leaves the pool as it was and every wallet always
has account 0, exactly when none fails between the creation of a wallet and of its account. -/
theorem addAccount_atomic_iff (runs : List Run) :
    (∀ past run rest, runs = past ++ run :: rest →
      Atomic lib run (poolAfter lib past) ∧ Usable (poolAfter lib (past ++ [run]))) ↔
    ∀ past run rest, runs = past ++ run :: rest → ¬ Orphans lib run (poolAfter lib past) := by
  constructor
  · exact fun h past run rest hr => atomic_iff.mp (h past run rest hr).1
  · intro ho past run rest hr
    refine ⟨atomic_iff.mpr (ho past run rest hr), usable_poolAfter _ fun past' run' rest' h => ?_⟩
    refine ho past' run' (rest' ++ rest) ?_
    rw [hr, List.append_cons, h, List.append_assoc]
    rfl

/-- The extended key is malformed, which shows when the account is created. -/
def malformedKey : Run where
  answers := { newAccount := .error ⟨"Invalid checksum"⟩ }
  explorerUrl := "https://explorers.api.live.ledger.com"
  options := ["--name", "savings", "--xpub", "xpub"]

theorem malformed_key_leaves_wallet : ¬ ∀ runs past run rest, runs = past ++ run :: rest →
    Atomic oneCurrency run (poolAfter oneCurrency past) ∧
      Usable (poolAfter oneCurrency (past ++ [run])) := by
  intro h
  have hpool := (h [malformedKey] [] malformedKey [] rfl).1 (by decide)
  exact absurd (congrArg List.length hpool) (by decide)

end LibCoreCmd.Commands
