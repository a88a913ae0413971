import GridRobot.Main
import GridRobot.Program.Linkage
import GridRobot.Proofs.Assembler.Reassembly
import GridRobot.Proofs.Language.Safety
import GridRobot.Proofs.Language.Shape
import GridRobot.Proofs.Language.Tokens
import GridRobot.Proofs.World.Reach
import GridRobot.Proofs.Machine.Batch
import GridRobot.Proofs.Machine.Effect
import GridRobot.Proofs.Machine.Invariant
import GridRobot.Proofs.Machine.Terminal
import GridRobot.Proofs.World.LevelText
import GridRobot.Proofs.Language.Conditions
import GridRobot.Proofs.Language.Refusal
import GridRobot.Proofs.Language.Printing
import GridRobot.Proofs.Language.Respacing
import GridRobot.Proofs.World.Bounds
import GridRobot.Proofs.World.Movement
import GridRobot.Proofs.World.Change
import GridRobot.Proofs.Machine.Conservation
import GridRobot.Proofs.Machine.Lockstep
import GridRobot.Proofs.Machine.Lines
import GridRobot.Proofs.World.Picture
import GridRobot.Proofs.Language.Pauses
import GridRobot.Proofs.Language.Entry
import GridRobot.Proofs.World.LevelLines
import GridRobot.Proofs.World.LevelMeaning
import GridRobot.Proofs.Assembler.Lines
import GridRobot.Proofs.Diagnostic.Positions
import GridRobot.Proofs.World.Tally
import GridRobot.Proofs.Machine.Rewinding
import GridRobot.Proofs.Session.Reload
import GridRobot.Proofs.Assembler.Concatenation
import GridRobot.Proofs.Session.Stepping
import GridRobot.Proofs.Text.Columns
import GridRobot.Proofs.Program.Linking
import GridRobot.Proofs.Language.Spellings
import GridRobot.Proofs.Language.Progress
import GridRobot.Proofs.Program.Relocation
import GridRobot.Proofs.Language.OnePass
import GridRobot.Proofs.Diagnostic.Explanation
import GridRobot.Proofs.World.Scatter
import GridRobot.Proofs.Text.Runs
