import DocTree.Block.Search
import DocTree.Chain.Delivery
import DocTree.Files.Memory
import DocTree.Main
import DocTree.Proofs.Event.Nesting
import DocTree.Proofs.Event.OpenBlocks
import DocTree.Proofs.Json.RoundTrip
import DocTree.Proofs.Block.Positions
import DocTree.Proofs.Block.RoundTrip
import DocTree.Proofs.Macro.Worklist
import DocTree.Proofs.Chain.Places
import DocTree.Proofs.Chain.FanOut
import DocTree.Proofs.Chain.Watching
import DocTree.Proofs.Chain.Surroundings
import DocTree.Proofs.Chain.TableIndices
import DocTree.Proofs.Reference.Resolution
import DocTree.Proofs.Transform.Pipeline
import DocTree.Proofs.Macro.Completeness
import DocTree.Proofs.Macro.Restriction
import DocTree.Proofs.Chain.Isolation
import DocTree.Proofs.Event.Printing
import DocTree.Proofs.Macro.Confluence
import DocTree.Proofs.Transform.Validity
import DocTree.Proofs.Macro.Provenance
import DocTree.Proofs.Listener.Ensemble
import DocTree.Proofs.Listener.Forwarding
import DocTree.Proofs.Chain.Stacking
import DocTree.Proofs.Transform.Icons
import DocTree.Proofs.App.EventsCommand
import DocTree.Proofs.Chain.Placement
import DocTree.Proofs.Text.Tokenization
import DocTree.Proofs.Block.Expressible
import DocTree.Proofs.Listener.Source
import DocTree.Proofs.Json.Reordering
import DocTree.Proofs.Block.MemberOrder
import DocTree.Proofs.Block.DocumentOrder
import DocTree.Proofs.Block.Replacement
import DocTree.Proofs.Event.RefusedWrites
import DocTree.Proofs.Text.Escaping
import DocTree.Proofs.Text.Dialects
import DocTree.Proofs.Chain.Emptiness
import DocTree.Proofs.Chain.MetadataScopes
import DocTree.Proofs.Chain.StreamPosition
