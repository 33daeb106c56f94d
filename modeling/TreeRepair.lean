import TreeRepair.Basic
import TreeRepair.SeqRanges
import TreeRepair.CheckTree
import TreeRepair.Ingester
import TreeRepair.FetchWorkers
import TreeRepair.ReadTree
import TreeRepair.CheckLeafs
import TreeRepair.Forward
import TreeRepair.FindSignatures
import TreeRepair.OnchainSeq
import TreeRepair.ParseTx
import TreeRepair.ProcessTx
import TreeRepair.Resolvers
import TreeRepair.Pipeline
import TreeRepair.Proofs.SeqRanges
import TreeRepair.Proofs.FixTree
import TreeRepair.Proofs.CheckTree
import TreeRepair.Proofs.Ingester
import TreeRepair.Proofs.FetchWorkers
import TreeRepair.Proofs.ReadTree
import TreeRepair.Proofs.CheckLeafs
import TreeRepair.Proofs.Forward
import TreeRepair.Proofs.FindSignatures
import TreeRepair.Proofs.OnchainSeq
import TreeRepair.Proofs.ParseTx
import TreeRepair.Proofs.ProcessTx
import TreeRepair.Proofs.Resolvers
import TreeRepair.Proofs.Pipeline
import TreeRepair.Proofs.Repair
