import Mathlib.Algebra.Ring.Int.Defs
import Mathlib.Data.List.Basic

/-! The objects of `tools/blockchain/datas.py`. A transaction names its outputs by `ω`: by the
output objects themselves in a chain that is read, by their places in a heap while a chain is
generated and outputs are still written to. -/
namespace LibCoreCmd.Tools

abbrev Hash := String
abbrev Address := String

structure BlockHeader where
  height : Nat
  unixTimeInSec : Nat
  hash : Hash
deriving DecidableEq, Repr

def BlockHeader.new (height : Nat) (hash : Hash) : BlockHeader :=
  { height, unixTimeInSec := height * 100, hash }

structure TransactionOutput where
  address : Address
  value : Int
  index : Option Nat := none
  transactionHash : Option Hash := none
deriving DecidableEq, Repr

def TransactionOutput.addToTransaction (o : TransactionOutput) (index : Nat) (hash : Hash) :
    TransactionOutput :=
  { o with index := some index, transactionHash := some hash }

structure TransactionInput (ω : Type) where
  transactionOutput : ω
  index : Option Nat := none
deriving DecidableEq, Repr

def TransactionInput.addToTransaction {ω : Type} (i : TransactionInput ω) (index : Nat) :
    TransactionInput ω :=
  { i with index := some index }

structure Transaction (ω : Type) where
  id : Hash
  inputs : List (TransactionInput ω)
  outputs : List ω
  txHash : Hash
  unixTimeInSec : Option Nat
  blockHeader : Option BlockHeader
  txHex : Hash
deriving DecidableEq, Repr

/-- The fields the constructor sets; it also numbers the outputs, see `numberOutputs`. -/
def Transaction.new {ω : Type} (hash : Hash) (inputs : List (TransactionInput ω))
    (outputs : List ω) : Transaction ω :=
  { id := hash
    inputs := inputs.zipIdx.map fun (i, ind) => i.addToTransaction ind
    outputs
    txHash := hash
    unixTimeInSec := none
    blockHeader := none
    txHex := hash }

def Transaction.addToBlock {ω : Type} (tr : Transaction ω) (blockHeader : BlockHeader) :
    Transaction ω :=
  { tr with blockHeader := some blockHeader, unixTimeInSec := some blockHeader.unixTimeInSec }

def Transaction.getAmount (tr : Transaction TransactionOutput) : Int :=
  (tr.outputs.map (·.value)).sum

def Transaction.getFee (tr : Transaction TransactionOutput) : Int :=
  (tr.inputs.map (·.transactionOutput.value)).sum - tr.getAmount

/-- A block, whose transactions all carry its header. -/
structure Block (ω : Type) where
  transactions : List (Transaction ω)
  header : BlockHeader
  parentHash : Hash
  linked : ∀ tr ∈ transactions, tr.blockHeader = some header

def Block.new {ω : Type} (height : Nat) (hash parentHash : Hash)
    (transactions : List (Transaction ω)) : Block ω where
  transactions := transactions.map (·.addToBlock (.new height hash))
  header := .new height hash
  parentHash := parentHash
  linked := by
    intro tr htr
    obtain ⟨tr', _, rfl⟩ := List.mem_map.mp htr
    rfl

section Map
variable {ω ω' : Type}

/-- The same transaction, naming its outputs in another way. -/
def Transaction.map (f : ω → ω') (tr : Transaction ω) : Transaction ω' :=
  { id := tr.id
    inputs := tr.inputs.map fun inp => ⟨f inp.transactionOutput, inp.index⟩
    outputs := tr.outputs.map f
    txHash := tr.txHash
    unixTimeInSec := tr.unixTimeInSec
    blockHeader := tr.blockHeader
    txHex := tr.txHex }

def Block.map (f : ω → ω') (b : Block ω) : Block ω' where
  transactions := b.transactions.map (Transaction.map f)
  header := b.header
  parentHash := b.parentHash
  linked := by
    intro tr htr
    obtain ⟨tr', h, rfl⟩ := List.mem_map.mp htr
    exact b.linked tr' h

end Map

def transactions {ω : Type} (blocks : List (Block ω)) : List (Transaction ω) :=
  blocks.flatMap (·.transactions)

structure Blockchain (ω : Type) where
  blocks : List (Block ω)

end LibCoreCmd.Tools
