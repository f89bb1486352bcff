import LibCoreCmd.Transition
import LibCoreCmd.Tools.Datas

/-! The generator of `tools/gen_data.py`. Outputs are shared between the pool, a transaction and
later inputs, and are written to after they are put in the pool, so they live in a heap. -/
namespace LibCoreCmd.Tools.GenData
open Transition

/-- The nodes of the key tree, as far as they are used. -/
class BIP32Node (ν : Type) where
  subkey : ν → Nat → ν
  address : ν → Address

inductive CommandType where
  | get
  | send
  | other (name : String)
deriving DecidableEq, Repr

structure Command where
  commandType : CommandType
  amount : Int
deriving DecidableEq, Repr

/-- The `ValueError` of a send that finds too little in the pool. -/
structure NotEnoughFund where
  text : String := "Not enough fund to make {0}-th operation {1}"
  opIndex : Nat
  command : Command
deriving DecidableEq, Repr

abbrev Ref := Nat
abbrev Heap := List TransactionOutput

def Heap.read (heap : Heap) (r : Ref) : TransactionOutput := heap.getD r ⟨"", 0, none, none⟩

/-- What the constructor of a transaction does to its outputs. -/
def Heap.numberOutputs (heap : Heap) (hash : Hash) (outputs : List Ref) : Heap :=
  outputs.zipIdx.foldl (fun heap (o, ind) => heap.modify o (·.addToTransaction ind hash)) heap

/-- The local variables of the generator when it yields a block. -/
structure State where
  heap : Heap := []
  /-- How often `random_sha` was called. -/
  drawn : Nat := 0
  opIndex : Nat := 0
  curExternal : Nat := 0
  curChange : Nat := 0
  UTXOs : List Ref := []
  prevBlock : Block Ref
  /-- Every block yielded so far, the last one included. -/
  yielded : List (Block Ref)

def genesis : Block Ref :=
  .new 0 "000000000019d6689c085ae165831e934ff763ae46a2a6c172b3f1b60a8ce26f"
    "0000000000000000000000000000000000000000000000000000000000000000" []

def State.start : State := { prevBlock := genesis, yielded := [genesis] }

/-- The loop that takes outputs from the front of the pool. -/
def pickUTXOs (heap : Heap) (needed : Int) :
    List Ref → Int → List (TransactionInput Ref) → List Ref × Int × List (TransactionInput Ref)
  | [], totalSum, inps => ([], totalSum, inps)
  | utxo :: UTXOs, totalSum, inps =>
    let totalSum := totalSum + (heap.read utxo).value
    let inps := inps ++ [{ transactionOutput := utxo }]
    if totalSum ≥ needed then (UTXOs, totalSum, inps)
    else pickUTXOs heap needed UTXOs totalSum inps

section Generate
variable {ν : Type} [BIP32Node ν] (root : ν) (randomSha : Nat → Hash) (fee : Int)

def external (i : Nat) : Address := BIP32Node.address (BIP32Node.subkey (BIP32Node.subkey root 0) i)

def internal (i : Nat) : Address := BIP32Node.address (BIP32Node.subkey (BIP32Node.subkey root 1) i)

/-- The end of the loop body: the transaction is built and its block yielded. -/
def State.yield (s : State) (inps : List (TransactionInput Ref)) (outs : List Ref) : State :=
  let hash := randomSha s.drawn
  let newBlock := Block.new (s.prevBlock.header.height + 1) (randomSha (s.drawn + 1))
    s.prevBlock.header.hash [.new hash inps outs]
  { s with
    heap := s.heap.numberOutputs hash outs
    drawn := s.drawn + 2
    opIndex := s.opIndex + 1
    prevBlock := newBlock
    yielded := s.yielded ++ [newBlock] }

/-- The loop body. A new output is the last object of the heap. -/
def State.operate (s : State) (command : Command) : Except NotEnoughFund State :=
  let amount := command.amount
  match command.commandType with
  | .get =>
    let giverUTXO : TransactionOutput :=
      { address := BIP32Node.address root, value := amount + fee,
        transactionHash := some (randomSha s.drawn), index := some 0 }
    let out : TransactionOutput := { address := external root s.curExternal, value := amount }
    let outRef := s.heap.length + 1
    .ok (State.yield randomSha
      { s with
        heap := s.heap ++ [giverUTXO, out]
        drawn := s.drawn + 1
        curExternal := s.curExternal + 1
        UTXOs := s.UTXOs ++ [outRef] }
      [{ transactionOutput := s.heap.length }] [outRef])
  | .send =>
    let (UTXOs, totalSum, inps) := pickUTXOs s.heap (fee + amount) s.UTXOs 0 []
    if totalSum < fee + amount then .error { opIndex := s.opIndex, command }
    else
      let out : TransactionOutput := { address := BIP32Node.address root, value := amount }
      let outRef := s.heap.length
      let rest := totalSum - fee - amount
      if rest > 0 then
        let ourOut : TransactionOutput := { address := internal root s.curChange, value := rest }
        let ourRef := s.heap.length + 1
        .ok (State.yield randomSha
          { s with
            heap := s.heap ++ [out, ourOut]
            curChange := s.curChange + 1
            UTXOs := UTXOs ++ [ourRef] }
          inps [outRef, ourRef])
      else
        .ok (State.yield randomSha { s with heap := s.heap ++ [out], UTXOs := UTXOs } inps [outRef])
  | .other _ => .ok (s.yield randomSha [] [])

/-- The states at the yields from `s` on, and the exception that ended the run, if any. -/
def generateFrom (s : State) : List Command → List State × Option NotEnoughFund
  | [] => ([s], none)
  | command :: commands =>
    match s.operate root randomSha fee command with
    | .error e => ([s], some e)
    | .ok t =>
      let rest := generateFrom t commands
      (s :: rest.1, rest.2)

def generate (commands : List Command) : List State × Option NotEnoughFund :=
  generateFrom root randomSha fee .start commands

/-- The operations as a system, whose runs lead from yield to yield. -/
def generator : System State Command :=
  .ofNext fun s command => (s.operate root randomSha fee command).toOption

variable {root randomSha fee} {s t : State} {command : Command} {commands : List Command}

theorem generateFrom_zero : (generateFrom root randomSha fee s commands).1[0]? = some s := by
  cases commands with
  | nil => rfl
  | cons c cs => cases ho : s.operate root randomSha fee c <;> simp [generateFrom, ho]

theorem run_of_generateFrom {k : Nat}
    (hy : (generateFrom root randomSha fee s commands).1[k]? = some t) :
    (generator root randomSha fee).Run s (commands.take k) t := by
  induction k generalizing s commands with
  | zero =>
    rw [generateFrom_zero, Option.some.injEq] at hy
    exact hy ▸ .refl s
  | succ k ih =>
    cases commands with
    | nil => simp [generateFrom] at hy
    | cons c cs =>
      cases ho : s.operate root randomSha fee c with
      | error e => simp [generateFrom, ho] at hy
      | ok u =>
        simp only [generateFrom, ho, List.getElem?_cons_succ] at hy
        exact .cons (by simp [generator, System.ofNext, ho, Except.toOption]) (ih hy)

/-- After what was yielded the next command is done: it fails, and this is the end, or what it
leads to is yielded next. -/
theorem generateFrom_next {k : Nat}
    (hy : (generateFrom root randomSha fee s commands).1[k]? = some t)
    (hk : commands[k]? = some command) :
    (∀ e, t.operate root randomSha fee command = .error e →
      (generateFrom root randomSha fee s commands).1.length = k + 1 ∧
        (generateFrom root randomSha fee s commands).2 = some e) ∧
      ∀ u, t.operate root randomSha fee command = .ok u →
        (generateFrom root randomSha fee s commands).1[k + 1]? = some u := by
  induction k generalizing s commands with
  | zero =>
    rw [generateFrom_zero, Option.some.injEq] at hy
    subst hy
    obtain ⟨rest, rfl⟩ : ∃ rest, commands = command :: rest := by
      cases commands with
      | nil => cases hk
      | cons c rest =>
        cases hk
        exact ⟨rest, rfl⟩
    refine ⟨fun e he => by simp [generateFrom, he], fun u hu => ?_⟩
    simp only [generateFrom, hu, List.getElem?_cons_succ]
    exact generateFrom_zero
  | succ k ih =>
    cases commands with
    | nil => cases hk
    | cons c rest =>
      cases ho : s.operate root randomSha fee c with
      | error e => simp [generateFrom, ho] at hy
      | ok u =>
        simp only [generateFrom, ho, List.getElem?_cons_succ] at hy ⊢
        simpa using ih hy hk

/-- The values of some objects together. -/
def Heap.total (heap : Heap) (refs : List Ref) : Int := (refs.map fun r => (heap.read r).value).sum

/-- The picking takes a front part of the pool and totals its values. It stops at the first
output that makes the total enough, or at the end of the pool. -/
theorem pickUTXOs_stops (heap : Heap) (needed : Int) (UTXOs : List Ref) (totalSum : Int)
    (inps : List (TransactionInput Ref)) :
    ∃ picked rest, UTXOs = picked ++ rest ∧
      pickUTXOs heap needed UTXOs totalSum inps =
        (rest, totalSum + heap.total picked, inps ++ picked.map ({ transactionOutput := · })) ∧
      (totalSum < needed →
        ∀ n < picked.length, totalSum + heap.total (picked.take n) < needed) ∧
      (totalSum + heap.total picked < needed → rest = []) := by
  induction UTXOs generalizing totalSum inps with
  | nil => exact ⟨[], [], rfl, by simp [pickUTXOs, Heap.total], by simp, fun _ => rfl⟩
  | cons utxo UTXOs ih =>
    by_cases hn : totalSum + (heap.read utxo).value ≥ needed
    · refine ⟨[utxo], UTXOs, rfl, by simp [pickUTXOs, Heap.total, hn], ?_, ?_⟩
      · intro hs n hlt
        cases n with
        | zero => simpa [Heap.total] using hs
        | succ n => simp at hlt
      · intro hs
        simp [Heap.total] at hs
        omega
    · obtain ⟨picked, rest, hs, hp, hleast, hend⟩ :=
        ih (totalSum + (heap.read utxo).value) (inps ++ [{ transactionOutput := utxo }])
      refine ⟨utxo :: picked, rest, by rw [hs]; rfl, ?_, ?_, ?_⟩
      · simp [pickUTXOs, hn, hp, Heap.total, Int.add_assoc]
      · intro hs n hlt
        cases n with
        | zero => simpa [Heap.total] using hs
        | succ n =>
          have := hleast (by omega) n (by simpa using hlt)
          simp only [Heap.total, List.take_succ_cons, List.map_cons, List.sum_cons] at this ⊢
          omega
      · intro hs
        apply hend
        simp only [Heap.total, List.map_cons, List.sum_cons] at hs ⊢
        omega

theorem pickUTXOs_spec (heap : Heap) (needed : Int) (UTXOs : List Ref) (totalSum : Int)
    (inps : List (TransactionInput Ref)) :
    ∃ picked rest, UTXOs = picked ++ rest ∧
      pickUTXOs heap needed UTXOs totalSum inps =
        (rest, totalSum + heap.total picked, inps ++ picked.map ({ transactionOutput := · })) := by
  obtain ⟨picked, rest, hs, hp, -⟩ := pickUTXOs_stops heap needed UTXOs totalSum inps
  exact ⟨picked, rest, hs, hp⟩

/-- Outputs that are the last objects of the heap are numbered in place. -/
theorem numberOutputs_append (heap news : Heap) (hash : Hash) :
    (heap ++ news).numberOutputs hash (List.range' heap.length news.length) =
      heap ++ news.zipIdx.map fun (o, ind) => o.addToTransaction ind hash := by
  have numbered : ∀ (heap news : Heap) (k : Nat),
      ((List.range' heap.length news.length).zipIdx k).foldl
        (fun heap (o, ind) => heap.modify o (·.addToTransaction ind hash)) (heap ++ news) =
        heap ++ (news.zipIdx k).map fun (o, ind) => o.addToTransaction ind hash := by
    intro heap news
    induction news generalizing heap with
    | nil => simp
    | cons o news ih =>
      intro k
      have hrest := ih (heap ++ [o.addToTransaction k hash]) (k + 1)
      rw [List.length_append, List.append_assoc, List.append_assoc] at hrest
      rw [List.length_cons, List.range'_succ, List.zipIdx_cons, List.foldl_cons]
      dsimp only
      rw [List.modify_eq_take_cons_drop (by simp)]
      simpa using hrest
  exact numbered heap news 0

/-- Besides what happens to the pool, an operation adds objects to the heap and yields one
block with one transaction, for whose hash it draws number `d`. -/
structure Yields (randomSha : Nat → Hash) (s t : State) (d : Nat) (inps outs : List Ref)
    (news : Heap) : Prop where
  heap : t.heap = s.heap ++ news
  drawn : t.drawn = d + 2
  opIndex : t.opIndex = s.opIndex + 1
  prevBlock : t.prevBlock = .new (s.prevBlock.header.height + 1) (randomSha (d + 1))
    s.prevBlock.header.hash [.new (randomSha d) (inps.map ({ transactionOutput := · })) outs]
  yielded : t.yielded = s.yielded ++ [t.prevBlock]

/-- What an operation does: `s` is left for `t`. -/
inductive Operation (root : ν) (randomSha : Nat → Hash) (fee : Int) (s t : State) :
    Command → Prop where
  | get {amount : Int} :
      Yields randomSha s t (s.drawn + 1) [s.heap.length] [s.heap.length + 1]
        [⟨BIP32Node.address root, amount + fee, some 0, some (randomSha s.drawn)⟩,
          ⟨external root s.curExternal, amount, some 0, some (randomSha (s.drawn + 1))⟩] →
      t.UTXOs = s.UTXOs ++ [s.heap.length + 1] →
      t.curExternal = s.curExternal + 1 → t.curChange = s.curChange →
      Operation root randomSha fee s t ⟨.get, amount⟩
  | spend {amount : Int} {picked : List Ref} :
      s.UTXOs = picked ++ t.UTXOs → s.heap.total picked = fee + amount →
      Yields randomSha s t s.drawn picked [s.heap.length]
        [⟨BIP32Node.address root, amount, some 0, some (randomSha s.drawn)⟩] →
      t.curExternal = s.curExternal → t.curChange = s.curChange →
      Operation root randomSha fee s t ⟨.send, amount⟩
  | change {amount : Int} {picked rest : List Ref} :
      s.UTXOs = picked ++ rest → fee + amount < s.heap.total picked →
      Yields randomSha s t s.drawn picked [s.heap.length, s.heap.length + 1]
        [⟨BIP32Node.address root, amount, some 0, some (randomSha s.drawn)⟩,
          ⟨internal root s.curChange, s.heap.total picked - fee - amount, some 1,
            some (randomSha s.drawn)⟩] →
      t.UTXOs = rest ++ [s.heap.length + 1] →
      t.curExternal = s.curExternal → t.curChange = s.curChange + 1 →
      Operation root randomSha fee s t ⟨.send, amount⟩
  | other {name : String} {amount : Int} :
      Yields randomSha s t s.drawn [] [] [] → t.UTXOs = s.UTXOs →
      t.curExternal = s.curExternal → t.curChange = s.curChange →
      Operation root randomSha fee s t ⟨.other name, amount⟩

/-- The tail of the loop body, for outputs that are the last objects of the heap. -/
theorem yields_yield (s : State) (d e c : Nat) (UTXOs inps : List Ref) (olds news : Heap) :
    Yields randomSha s
      (State.yield randomSha
        { s with
          heap := s.heap ++ (olds ++ news)
          drawn := d
          curExternal := e
          curChange := c
          UTXOs := UTXOs }
        (inps.map ({ transactionOutput := · }))
        (List.range' (s.heap.length + olds.length) news.length))
      d inps (List.range' (s.heap.length + olds.length) news.length)
      (olds ++ news.zipIdx.map fun (o, ind) => o.addToTransaction ind (randomSha d)) where
  heap := by
    change Heap.numberOutputs (s.heap ++ (olds ++ news)) _ _ = _
    rw [← List.append_assoc, ← List.length_append, numberOutputs_append, List.append_assoc]
  drawn := rfl
  opIndex := rfl
  prevBlock := rfl
  yielded := rfl

theorem operation_of_operate (h : s.operate root randomSha fee command = .ok t) :
    Operation root randomSha fee s t command := by
  obtain ⟨type, amount⟩ := command
  cases type with
  | get =>
    cases h
    exact .get (yields_yield s _ _ _ _ [_] [_] [_]) rfl rfl rfl
  | send =>
    obtain ⟨picked, rest, hs, hp⟩ := pickUTXOs_spec s.heap (fee + amount) s.UTXOs 0 []
    simp only [State.operate, hp, Int.zero_add, List.nil_append] at h
    split at h
    · cases h
    split at h
    · cases h
      exact .change hs (by omega) (yields_yield s _ _ _ _ picked [] [_, _]) rfl rfl rfl
    · cases h
      exact .spend hs (by omega) (yields_yield s _ _ _ _ picked [] [_]) rfl rfl
  | other name =>
    cases h
    exact .other ⟨(List.append_nil _).symm, rfl, rfl, rfl, rfl⟩ rfl rfl rfl

theorem operation_of_step (h : (generator root randomSha fee).step s command t) :
    Operation root randomSha fee s t command := by
  cases ho : s.operate root randomSha fee command with
  | error e => simp [generator, System.ofNext, ho, Except.toOption] at h
  | ok u =>
    simp only [generator, System.ofNext, ho, Except.toOption, Option.some.injEq] at h
    exact operation_of_operate (h ▸ ho)

end Generate

/-- A node as the path that leads to it, with an address of its own. -/
instance : BIP32Node (List Nat) where
  subkey path i := path ++ [i]
  address path := String.ofList (path.flatMap fun i => '/' :: List.replicate i 'k')

/-- A stream without repetition. -/
def countedSha (n : Nat) : Hash := String.ofList (List.replicate n '0')

end LibCoreCmd.Tools.GenData
