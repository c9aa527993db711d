import ViewBinding.Config
import ViewBinding.View.Session
import ViewBinding.Proofs.Document.Access
import ViewBinding.Proofs.Document.Forest
import ViewBinding.Proofs.Document.PostOrder
import ViewBinding.Proofs.Document.Writes
import ViewBinding.Proofs.Compile.Discovery
import ViewBinding.Proofs.View.History
import ViewBinding.Proofs.View.Bookkeeping
import ViewBinding.Proofs.View.Termination
import ViewBinding.Proofs.Compile.Display
import ViewBinding.Proofs.View.InStep
import ViewBinding.Proofs.Markup.RoundTrip
import ViewBinding.Proofs.Markup.CutOff
import ViewBinding.Proofs.Markup.Appending
import ViewBinding.Proofs.View.FanOut
import ViewBinding.Proofs.View.Silence
import ViewBinding.Proofs.View.Forests
import ViewBinding.Proofs.View.Echo
import ViewBinding.Proofs.View.Determined
import ViewBinding.Proofs.Compile.Directives
import ViewBinding.Proofs.View.Keys
import ViewBinding.Proofs.View.Counts
import ViewBinding.Proofs.View.Isolation
import ViewBinding.Proofs.View.Touching
import ViewBinding.Proofs.View.TwoWay
import ViewBinding.Proofs.Markup.Joining
import ViewBinding.Proofs.Document.PreOrder
import ViewBinding.Proofs.Document.Searching
import ViewBinding.Proofs.Document.Moving
import ViewBinding.Proofs.Document.Texts
import ViewBinding.Proofs.Text.Templates
import ViewBinding.Proofs.Document.Selectors
import ViewBinding.Proofs.Markup.Entities
import ViewBinding.Proofs.Markup.Offsets
import ViewBinding.Proofs.Number.Integers
import ViewBinding.Proofs.Document.Attributes
import ViewBinding.Proofs.View.Dispatching
import ViewBinding.Proofs.View.Multimap
