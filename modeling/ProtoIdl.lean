import ProtoIdl.Main
import ProtoIdl.Proofs.Text.Encoding
import ProtoIdl.Proofs.Text.Place
import ProtoIdl.Proofs.Token.Step
import ProtoIdl.Proofs.Token.Lexeme
import ProtoIdl.Proofs.Token.Stream
import ProtoIdl.Proofs.Grammar.Charted
import ProtoIdl.Proofs.Tree.Node
import ProtoIdl.Proofs.Tree.Tidy
import ProtoIdl.Proofs.Grammar.Past
import ProtoIdl.Proofs.Grammar.Spans
import ProtoIdl.Proofs.Grammar.Head
import ProtoIdl.Proofs.Grammar.Layout
import ProtoIdl.Proofs.Grammar.Bodies
import ProtoIdl.Proofs.Places
import ProtoIdl.Proofs.Token.Spelling
import ProtoIdl.Proofs.Token.Words
import ProtoIdl.Proofs.Token.Spaced
import ProtoIdl.Proofs.Tree.Render
import ProtoIdl.Proofs.Token.Legible
import ProtoIdl.Proofs.Token.Bounds
import ProtoIdl.Proofs.Grammar.Rounds
import ProtoIdl.Proofs.Progress
import ProtoIdl.Proofs.Outcomes
import ProtoIdl.Proofs.Proper
import ProtoIdl.Proofs.Grammar.Saved
import ProtoIdl.Proofs.Kept
import ProtoIdl.Proofs.Recovery.Names
import ProtoIdl.Proofs.Recovery.Values
import ProtoIdl.Proofs.Recovery.Statements
import ProtoIdl.Proofs.Recovery.Bodies
import ProtoIdl.Proofs.Recovered
import ProtoIdl.Proofs.Token.Lookahead
import ProtoIdl.Proofs.Grammar.Footing
import ProtoIdl.Proofs.Lookahead
import ProtoIdl.Proofs.Tree.Move
import ProtoIdl.Proofs.Token.Pairing
import ProtoIdl.Proofs.Token.Seam
import ProtoIdl.Proofs.Token.Stop
import ProtoIdl.Proofs.Token.Crossing
import ProtoIdl.Proofs.Grammar.Coupling
import ProtoIdl.Proofs.Grammar.Landing
import ProtoIdl.Proofs.Grammar.Landed
import ProtoIdl.Proofs.Grammar.Coupled
import ProtoIdl.Proofs.Grammar.Meeting
import ProtoIdl.Proofs.Token.Faulted
import ProtoIdl.Proofs.Grammar.Runs
import ProtoIdl.Proofs.Grammar.Peeked
import ProtoIdl.Proofs.IllFormed
import ProtoIdl.Proofs.Token.Followed
import ProtoIdl.Proofs.Grammar.Joined
import ProtoIdl.Proofs.Concatenated
import ProtoIdl.Proofs.Malformed
import ProtoIdl.Proofs.Dropped
import ProtoIdl.Proofs.Permissive
import ProtoIdl.Proofs.Json.Text
import ProtoIdl.Proofs.Json.Tree
import ProtoIdl.Proofs.Identified
import ProtoIdl.Proofs.Text.Respacing
import ProtoIdl.Proofs.Token.Respaced
import ProtoIdl.Proofs.Json.Unordered
import ProtoIdl.Proofs.Viewed
import ProtoIdl.Proofs.Token.Spelled
import ProtoIdl.Proofs.Constant
import ProtoIdl.Proofs.Token.Literals
import ProtoIdl.Proofs.Token.Verbatim
import ProtoIdl.Proofs.Token.Tiling
import ProtoIdl.Proofs.Respaced
import ProtoIdl.Proofs.Token.Numerals
import ProtoIdl.Proofs.Token.NormalForm
import ProtoIdl.Proofs.Tree.Literal
import ProtoIdl.Proofs.Recovery.Literals
import ProtoIdl.Proofs.Grammar.Values
import ProtoIdl.Proofs.Rendered
import ProtoIdl.Proofs.Tree.Description
import ProtoIdl.Proofs.Described
import ProtoIdl.Proofs.Grammar.Collected
import ProtoIdl.Proofs.Grammar.Remarked
import ProtoIdl.Proofs.Ranged
import ProtoIdl.Proofs.Delimited
import ProtoIdl.Proofs.Token.Skipped
import ProtoIdl.Proofs.Token.Initial
import ProtoIdl.Proofs.Grammar.Skipped
import ProtoIdl.Proofs.Reserved
import ProtoIdl.Proofs.Versioned
import ProtoIdl.Proofs.Grammar.Endpoints
import ProtoIdl.Proofs.Grammar.Stated
import ProtoIdl.Proofs.Recovery.Endpoints
import ProtoIdl.Proofs.Reread
import ProtoIdl.Proofs.Recovery.Texts
import ProtoIdl.Proofs.Recovery.Labels
import ProtoIdl.Proofs.Relabelled
import ProtoIdl.Proofs.Partitioned
import ProtoIdl.Proofs.Tree.Outline
import ProtoIdl.Proofs.Outlined
import ProtoIdl.Proofs.Tree.Walk
import ProtoIdl.Proofs.Tree.Tally
import ProtoIdl.Proofs.Visited
import ProtoIdl.Proofs.Command.Settings
import ProtoIdl.Proofs.Command.Process
import ProtoIdl.Proofs.Command.Alone
import ProtoIdl.Proofs.Sequenced
import ProtoIdl.Proofs.Command.Spelling
import ProtoIdl.Proofs.Command.Below
import ProtoIdl.Proofs.Scanned
import ProtoIdl.Proofs.Text.Chunked
import ProtoIdl.Proofs.Buffered
