import LibCoreCmd.Commands.AddAccount

/-! The command that lists the accounts. It and the command that adds one look at the first
thousand wallets of the pool. -/
namespace LibCoreCmd.Commands
open Program

/-- `value()` of an optional string. -/
def Library.value (lib : Library) : Option String → Except Exception String
  | some s => .ok s
  | none => .error lib.badOptionalAccess

def accountLine (wallet : Wallet) (account : Account) (keychainEngine : String) : String :=
  wallet.name ++ " " ++ account.restoreKey ++ " " ++ keychainEngine ++ "\n"

/-- The loop over the wallets. -/
def listWallets (lib : Library) : List Wallet → Action Unit
  | [] => return
  | wallet :: wallets => do
    let account ← getAccount lib wallet 0
    let keychainEngine ← .ofExcept (lib.value wallet.configuration.keychainEngine)
    print (accountLine wallet account keychainEngine)
    listWallets lib wallets

def listAccounts (lib : Library) (answers : Answers) : Action Unit := do
  let walletsOption ← getWallets answers 0 1000
  match walletsOption with
  | none => print "0 accounts found\n"
  | some wallets =>
    if wallets.isEmpty then print "0 accounts found\n"
    else listWallets lib wallets

/-- The wallet has account 0 and a keychain engine. -/
structure Listable (wallet : Wallet) : Prop where
  account : (wallet.account 0).isSome
  keychainEngine : wallet.configuration.keychainEngine.isSome

/-- The line that is due for a wallet with account 0 and a keychain engine. -/
def describe (wallet : Wallet) : String :=
  accountLine wallet ((wallet.account 0).getD ⟨0, ""⟩)
    (wallet.configuration.keychainEngine.getD "")

/-- What a complete listing prints. -/
def listing (pool : List Wallet) : List String :=
  if pool.isEmpty then ["0 accounts found\n"] else pool.map describe

/-- The name is reported as taken, and no wallet is created. -/
def Reports (name : String) (w : World) : Prop :=
  alreadyExists name ∈ w.stdout ∧ ∀ created, .createWallet created ∉ w.calls

variable {lib : Library} {answers : Answers} {explorerUrl : String} {options : List String}
  {params : AddAccountParameters} {w : World} {pool wallets : List Wallet}

theorem listWallets_ok (h : ∀ wallet ∈ wallets, Listable wallet) :
    listWallets lib wallets w =
      (.ok (), { w with stdout := w.stdout ++ wallets.map describe }) := by
  induction wallets generalizing w with
  | nil => simp [listWallets]
  | cons wallet wallets ih =>
    obtain ⟨account, ha⟩ := Option.isSome_iff_exists.mp (h wallet (by simp)).account
    obtain ⟨engine, he⟩ := Option.isSome_iff_exists.mp (h wallet (by simp)).keychainEngine
    have hline : describe wallet = accountLine wallet account engine := by simp [describe, ha, he]
    have hrest := @ih { w with stdout := w.stdout ++ [describe wallet] }
      fun v hv => h v (List.mem_cons_of_mem _ hv)
    simp only [listWallets, getAccount, ha, sync, Library.value, he, print, run_bind, run_pure,
      run_ofExcept, run_modify, ← hline, hrest, List.map_cons, List.append_assoc, List.cons_append,
      List.nil_append]

/-- The listing of the first thousand wallets. -/
theorem listAccounts_stdout (hg : answers.getWallets = none)
    (h : ∀ wallet ∈ pool, Listable wallet) :
    (listAccounts lib answers { pool }).2.stdout = listing (pool.take 1000) := by
  have hfirst : ∀ wallet ∈ pool.take 1000, Listable wallet :=
    fun wallet hw => h wallet (List.mem_of_mem_take hw)
  rw [listAccounts, bind_ok (getWallets_ok hg), List.drop_zero, listing]
  dsimp only
  split
  · rfl
  · rw [listWallets_ok hfirst]
    rfl

theorem listWallets_returns_iff :
    Returns (listWallets lib wallets) w ↔ ∀ wallet ∈ wallets, Listable wallet := by
  induction wallets generalizing w with
  | nil => simp [listWallets]
  | cons wallet wallets ih =>
    rw [listWallets, returns_getAccount_bind, List.forall_mem_cons]
    constructor
    · rintro ⟨account, ha, hr⟩
      obtain ⟨engine, he, hr⟩ := returns_ofExcept_bind.mp hr
      refine ⟨⟨by simp [ha], ?_⟩, ih.mp hr⟩
      cases hk : wallet.configuration.keychainEngine with
      | none => simp [Library.value, hk] at he
      | some engine => rfl
    · rintro ⟨⟨ha, he⟩, hrest⟩
      obtain ⟨account, ha⟩ := Option.isSome_iff_exists.mp ha
      obtain ⟨engine, he⟩ := Option.isSome_iff_exists.mp he
      exact ⟨account, ha, returns_ofExcept_bind.mpr ⟨engine, by rw [he]; rfl, ih.mpr hrest⟩⟩

theorem listAccounts_returns_iff : Returns (listAccounts lib answers) w ↔
    answers.getWallets = none ∧ ∀ wallet ∈ w.pool.take 1000, Listable wallet := by
  cases hg : answers.getWallets with
  | some error => simp [listAccounts, Returns, bind_error (getWallets_error hg), Except.toOption]
  | none =>
    rw [listAccounts, Returns, bind_ok (getWallets_ok hg), List.drop_zero]
    cases hp : w.pool.take 1000 with
    | nil => simp [print, Except.toOption]
    | cons wallet wallets =>
      change Returns (listWallets lib (wallet :: wallets)) w ↔ _
      rw [listWallets_returns_iff, and_iff_right rfl]

theorem listing_length (hne : pool ≠ []) : (listing pool).length = pool.length := by
  simp [listing, hne]

/-- A name is reported if one of the first thousand wallets has it. -/
theorem reports_iff (hp : Parsed lib options params)
    (hh : params.wasHelp = false) (hg : answers.getWallets = none) (hw : w.calls = []) :
    Reports params.name (addAccount lib answers explorerUrl options w).2 ↔
      ∃ wallet ∈ w.pool.take 1000, wallet.name = params.name := by
  have hnamed : named params.name (some (w.pool.take 1000)) = true ↔
      ∃ wallet ∈ w.pool.take 1000, wallet.name = params.name := by simp [named]
  rw [← hnamed]
  constructor
  · rintro ⟨-, hc⟩
    by_contra hn
    exact hc _ (createWallet_mem_calls ⟨hp, hh, hg, by simpa using hn⟩)
  · intro hn
    obtain ⟨hout, hcalls⟩ := addAccount_of_named hp hh hg hn
    exact ⟨hout, by simp [hcalls, hw]⟩

/-- Listing shows every wallet and adding finds every name, exactly when the pool has at most
a thousand wallets. -/
theorem scans_complete_iff (lib : Library) (hg : answers.getWallets = none)
    (hpool : ∀ wallet ∈ pool, Listable wallet) :
    ((listAccounts lib answers { pool }).2.stdout = listing pool ∧
      ∀ explorerUrl options params, Parsed lib options params → params.wasHelp = false →
        (Reports params.name (addAccount lib answers explorerUrl options { pool }).2 ↔
          ∃ wallet ∈ pool, wallet.name = params.name)) ↔
      pool.length ≤ 1000 := by
  rw [listAccounts_stdout hg hpool]
  constructor
  · rintro ⟨hlist, -⟩
    by_contra hlong
    have hne : pool ≠ [] := by
      rintro rfl
      simp at hlong
    have htake : pool.take 1000 ≠ [] := by simpa using hne
    have hlen := congrArg List.length hlist
    rw [listing_length htake, listing_length hne, List.length_take] at hlen
    omega
  · intro hshort
    have htake : pool.take 1000 = pool := List.take_of_length_le hshort
    refine ⟨by rw [htake], fun explorerUrl options params hp hh => ?_⟩
    rw [reports_iff hp hh hg rfl, htake]

/-- A wallet with its account, named by a number of its own. -/
def numbered (n : Nat) : Wallet where
  name := String.ofList (List.replicate n 'w')
  currency := { name := "bitcoin" }
  configuration := { keychainEngine := some "BIP32_P2PKH" }
  accounts := [⟨0, "xpub"⟩]

theorem listable_numbered (n : Nat) : Listable (numbered n) := ⟨rfl, rfl⟩

def answering : Answers where
  newAccount := .ok "xpub"

theorem scans_complete_two :
    (listAccounts oneCurrency answering { pool := [numbered 1, numbered 2] }).2.stdout =
        listing [numbered 1, numbered 2] ∧
      Reports "ww" (addAccount oneCurrency answering "" ["--name", "ww", "--xpub", "xpub"]
        { pool := [numbered 1, numbered 2] }).2 := by
  have hl : ∀ wallet ∈ [numbered 1, numbered 2], Listable wallet := by
    simp [listable_numbered]
  have hg : answering.getWallets = none := rfl
  have hs := (scans_complete_iff oneCurrency hg hl).mpr (by decide)
  have hp : Parsed oneCurrency ["--name", "ww", "--xpub", "xpub"]
      ⟨"xpub", "ww", { name := "bitcoin" }, "BIP32_P2PKH", false⟩ :=
    (parseParams_eq_ok_iff (w := {})).mp rfl
  exact ⟨hs.1, (hs.2 "" ["--name", "ww", "--xpub", "xpub"] ⟨"xpub", "ww", _, _, false⟩ hp rfl).mpr
    ⟨numbered 2, by simp, rfl⟩⟩

/-- The last of a thousand and one wallets is not listed. -/
theorem scans_incomplete_thousand_and_one :
    ¬ ∀ pool, (∀ wallet ∈ pool, Listable wallet) →
      (listAccounts oneCurrency answering { pool }).2.stdout = listing pool := by
  intro h
  have hl : ∀ wallet ∈ (List.range 1001).map numbered, Listable wallet := by
    intro wallet hw
    obtain ⟨n, -, rfl⟩ := List.mem_map.mp hw
    exact listable_numbered n
  have hlist := h _ hl
  rw [listAccounts_stdout rfl hl] at hlist
  have hlen := congrArg List.length hlist
  rw [listing_length (by simp), listing_length (by simp)] at hlen
  simp at hlen

end LibCoreCmd.Commands
