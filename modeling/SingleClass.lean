import SingleClass.Narration
import SingleClass.Proofs.Assembly.Decoding
import SingleClass.Proofs.Assembly.Encoding
import SingleClass.Proofs.Assembly.Limits
import SingleClass.Proofs.Assembly.Renumbering
import SingleClass.Proofs.Constant.NormalForm
import SingleClass.Proofs.Correctness
import SingleClass.Proofs.Lowering.ArgumentBinding
import SingleClass.Proofs.Lowering.ForeignCalls
import SingleClass.Proofs.Lowering.MustReturn
import SingleClass.Proofs.Lowering.WellTyped
import SingleClass.Proofs.Typing.Indeterminate
