import JsonRules.CommandLine
import JsonRules.Double
import JsonRules.Double.Decimal
import JsonRules.Double.Interchange
import JsonRules.Engine
import JsonRules.Host.Registry
import JsonRules.Host.Stock
import JsonRules.Json
import JsonRules.Json.Compare
import JsonRules.Json.Document
import JsonRules.Json.Token
import JsonRules.Main
import JsonRules.Proofs.Double.Decimal
import JsonRules.Proofs.Double.Exact
import JsonRules.Proofs.Double.Layout
import JsonRules.Proofs.Double.Nearest
import JsonRules.Proofs.Double.Value
import JsonRules.Proofs.Engine.Agree
import JsonRules.Proofs.Engine.Failure
import JsonRules.Proofs.Engine.Fold
import JsonRules.Proofs.Engine.Iteration
import JsonRules.Proofs.Engine.References
import JsonRules.Proofs.Engine.Schedule
import JsonRules.Proofs.Engine.Search
import JsonRules.Proofs.Engine.Session
import JsonRules.Proofs.Engine.Threshold
import JsonRules.Proofs.Host.History
import JsonRules.Proofs.Host.Registry
import JsonRules.Proofs.Integer
import JsonRules.Proofs.Json.Document
import JsonRules.Proofs.Json.Equality
import JsonRules.Proofs.Json.Number
import JsonRules.Proofs.Json.Order
import JsonRules.Proofs.Json.Parts
import JsonRules.Proofs.Json.Path
import JsonRules.Proofs.Json.Reordered
import JsonRules.Proofs.Json.Token
import JsonRules.Proofs.List
import JsonRules.Proofs.Rule.Arithmetic
import JsonRules.Proofs.Rule.Canonical
import JsonRules.Proofs.Rule.Collect
import JsonRules.Proofs.Rule.Comparison
import JsonRules.Proofs.Rule.Compile
import JsonRules.Proofs.Rule.Congruence
import JsonRules.Proofs.Rule.Image
import JsonRules.Proofs.Rule.Integers
import JsonRules.Proofs.Rule.Modulo
import JsonRules.Proofs.Rule.Normal
import JsonRules.Proofs.Rule.Offence
import JsonRules.Proofs.Rule.References
import JsonRules.Proofs.Rule.Reordered
import JsonRules.Proofs.Run.Closed
import JsonRules.Proofs.Run.Loops
import JsonRules.Proofs.Run.Related
import JsonRules.Proofs.Service.Message
import JsonRules.Proofs.Service.Process
import JsonRules.Proofs.Service.Reply
import JsonRules.Proofs.Service.Validate
import JsonRules.Proofs.Settings.Layers
import JsonRules.Proofs.Settings.Tree
import JsonRules.Rule.Compile
import JsonRules.Rule.Error
import JsonRules.Rule.Evaluate
import JsonRules.Rule.Interpret
import JsonRules.Rule.Operator
import JsonRules.Rule.Perform
import JsonRules.Rule.Position
import JsonRules.Rule.Result
import JsonRules.Rule.Schedule
import JsonRules.Rule.Tree
import JsonRules.Run.Course
import JsonRules.Run.Event
import JsonRules.Run.Program
import JsonRules.Service
import JsonRules.Service.Message
import JsonRules.Settings
import JsonRules.Settings.Ini
import JsonRules.Settings.Json5
import JsonRules.Settings.Layer
import JsonRules.Settings.Ron
import JsonRules.Settings.Ron.Token
import JsonRules.Settings.Toml
import JsonRules.Settings.Toml.Scalar
import JsonRules.Settings.Toml.Text
import JsonRules.Settings.Tree
import JsonRules.Settings.Yaml
import JsonRules.Settings.Yaml.Scalar
import JsonRules.Settings.Yaml.Token
import JsonRules.Text
