import UnionTyping.Main
import UnionTyping.Proofs.Principal
import UnionTyping.Proofs.Warnings
import UnionTyping.Proofs.Aftermath
import UnionTyping.Proofs.Sessions
import UnionTyping.Proofs.Commitment
import UnionTyping.Proofs.Reordering
import UnionTyping.Proofs.Blame
import UnionTyping.Proofs.Narrowing
import UnionTyping.Proofs.Interchange
import UnionTyping.Proofs.Equivalence
import UnionTyping.Proofs.Precedence
import UnionTyping.Proofs.Dispatch
import UnionTyping.Proofs.Quoting
import UnionTyping.Proofs.Faithful
import UnionTyping.Proofs.Positions
import UnionTyping.Proofs.Regrouping
import UnionTyping.Proofs.Signatures
import UnionTyping.Proofs.Stripping
import UnionTyping.Proofs.Backtracking
